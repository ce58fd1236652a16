import HelgrindPlus.Main.IntervalOrder

/-!
# The intersection of interval unions

`HG_(ivUnionIntersect)` walks over two unions with one iterator each.  A round
of its loop in which the current intervals touch advances neither iterator,
and so is followed by the same round again.
-/

namespace HelgrindPlus

open Outcome WordFM

namespace Ivu

variable {w : Nat}

/-- The loop of `HG_(ivUnionAddIvUnion)` over what the iterator yields. -/
def addFrom (ivuSrc : Ivu w) (items : List (BitVec w × Nat))
    (ivuDest : Ivu w) : Except Abort (Ivu w) :=
  items.foldlM (fun ivuDest item => do
    let ivc := ivuSrc.interval item.2
    if item.1 = ivc.start then do
      let (ivuDest, _) ← ivuDest.ivUnionAddInterval ivc.start ivc.stop
      pure ivuDest
    else pure ivuDest) ivuDest

def ivUnionAddIvUnion (ivuDest ivuSrc : Ivu w) : Except Abort (Ivu w) := do
  let ivuDest ← addFrom ivuSrc ivuSrc.collect ivuDest
  tlAssert (ivuDest.isSane = true)
  pure ivuDest

/-- The variables of the loop: what each iterator has yielded last, and what
it still has to yield. -/
structure Meeting (w : Nat) where
  res : Ivu w
  key1 : BitVec w
  ivc1 : Interval w
  iter1 : List (BitVec w × Nat)
  key2 : BitVec w
  ivc2 : Interval w
  iter2 : List (BitVec w × Nat)

/-- What a round adds to the result. -/
def meetAdd (m : Meeting w) : Except Abort (Ivu w) :=
  if m.key1 = m.ivc1.start then do
    tlAssert (m.key2 = m.ivc2.start)
    if (m.key1 ≤ m.key2 ∧ m.key2 < m.ivc1.stop) ∨
        (m.key2 ≤ m.key1 ∧ m.key1 < m.ivc2.stop) then do
      let (res, _) ← m.res.ivUnionAddInterval m.ivc2.start m.ivc2.stop
      pure res
    else pure m.res
  else pure m.res

/-- The body of the loop; it yields `none` where the loop is left. -/
def meetRound (ivu1 ivu2 : Ivu w) (m : Meeting w) :
    Except Abort (Option (Meeting w) × Ivu w) := do
  let res ← meetAdd m
  if m.key1 > m.ivc2.stop then
    match m.iter2 with
    | [] => .error .tlAssert
    | [_] => pure (none, res)
    | _ :: (key2, ptr2) :: iter2 =>
        pure (some { m with res, key2, ivc2 := ivu2.interval ptr2, iter2 },
          res)
  else if m.key2 > m.ivc1.stop then
    match m.iter1 with
    | [] => .error .tlAssert
    | [_] => pure (none, res)
    | _ :: (key1, ptr1) :: iter1 =>
        pure (some { m with res, key1, ivc1 := ivu1.interval ptr1, iter1 },
          res)
  else pure (some { m with res }, res)

/-- At most so many rounds of the loop; `none` where they do not end it. -/
def meet (ivu1 ivu2 : Ivu w) : Nat → Meeting w → Option (Except Abort (Ivu w))
  | 0, _ => none
  | fuel + 1, m =>
      match meetRound ivu1 ivu2 m with
      | .error abort => some (.error abort)
      | .ok (none, res) => some (.ok res)
      | .ok (some next, _) => meet ivu1 ivu2 fuel next

/-- The result is `none` where the loop goes on after so many rounds, and
`some (.ok none)` for `NULL`. -/
def ivUnionIntersect (fuel : Nat) (unions : Nat → Ivu w) (ivu1 ivu2 : Nat) :
    Option (Except Abort (Option (Ivu w))) :=
  let sz1 := asInt (unions ivu1).sizeFM
  let sz2 := asInt (unions ivu2).sizeFM
  if sz1 = 0 ∨ sz2 = 0 then some (.ok none)
  else if ivu1 = ivu2 then
    some do
      let res ← new.ivUnionAddIvUnion (unions ivu2)
      tlAssert ((unions ivu2).isSane = true)
      pure (some res)
  else
    match (unions ivu1).collect, (unions ivu2).collect with
    | (key1, ptr1) :: iter1, (key2, ptr2) :: iter2 =>
        let m : Meeting w :=
          ⟨new, key1, (unions ivu1).interval ptr1, iter1,
            key2, (unions ivu2).interval ptr2, iter2⟩
        (meet (unions ivu1) (unions ivu2) fuel m).map fun met => do
          let res ← met
          tlAssert ((unions ivu1).isSane = true)
          tlAssert ((unions ivu2).isSane = true)
          pure (some res)
    | _, _ => some (.error .tlAssert)

section Loop

variable {ivu1 ivu2 : Ivu w} {m : Meeting w}

/-- Neither of the current intervals lies beyond the other. -/
structure Meeting.Stuck (m : Meeting w) : Prop where
  first : m.key1 ≤ m.ivc2.stop
  second : m.key2 ≤ m.ivc1.stop

theorem Meeting.Stuck.round (stuck : m.Stuck) {next : Option (Meeting w)}
    {res : Ivu w} (done : meetRound ivu1 ivu2 m = .ok (next, res)) :
    ∃ again, next = some again ∧ again.Stuck := by
  obtain ⟨first, second⟩ := stuck
  have notFirst : ¬ m.key1 > m.ivc2.stop := by bv_omega
  have notSecond : ¬ m.key2 > m.ivc1.stop := by bv_omega
  obtain ⟨res', -, done⟩ := bind_eq_ok.mp done
  rw [if_neg notFirst, if_neg notSecond] at done
  obtain ⟨rfl, rfl⟩ := Prod.mk.inj (Except.ok.inj done)
  exact ⟨_, rfl, first, second⟩

/-- The loop does not end while the intervals touch. -/
theorem Meeting.Stuck.meet_ne_ok (stuck : m.Stuck) (fuel : Nat)
    (res : Ivu w) : meet ivu1 ivu2 fuel m ≠ some (.ok res) := by
  induction fuel generalizing m with
  | zero => exact fun absurd => (nomatch absurd)
  | succ fuel induction =>
      intro met
      rw [meet] at met
      cases done : meetRound ivu1 ivu2 m with
      | error abort =>
          rw [done] at met
          exact (nomatch met)
      | ok result =>
          obtain ⟨next, res'⟩ := result
          obtain ⟨again, rfl, still⟩ := stuck.round done
          rw [done] at met
          exact induction still met

/-- The variables where both iterators have yielded a start. -/
def between (entry1 entry2 : Nat × Interval w) (rest1 rest2 : Stored w) :
    Meeting w :=
  ⟨new, entry1.2.start, entry1.2, (entry1.2.stop, entry1.1) :: keysOf rest1,
    entry2.2.start, entry2.2, (entry2.2.stop, entry2.1) :: keysOf rest2⟩

section Beyond

variable {entry1 entry2 : Nat × Interval w} {rest1 rest2 : Stored w}
  (proper1 : ∀ entry ∈ entry1 :: rest1, entry.2.start < entry.2.stop)
  (proper2 : ∀ entry ∈ entry2 :: rest2, entry.2.start < entry.2.stop)

include proper1 proper2

private theorem meetAdd_beyond (beyond : entry1.2.start > entry2.2.stop ∨
      entry2.2.start > entry1.2.stop) :
    meetAdd (between entry1 entry2 rest1 rest2) = .ok new := by
  have isProper1 := proper1 entry1 List.mem_cons_self
  have isProper2 := proper2 entry2 List.mem_cons_self
  have apart : ¬ ((entry1.2.start ≤ entry2.2.start ∧
      entry2.2.start < entry1.2.stop) ∨
        (entry2.2.start ≤ entry1.2.start ∧
          entry1.2.start < entry2.2.stop)) := by bv_omega
  rw [meetAdd, between, if_pos rfl, tlAssert_of rfl, ok_bind, if_neg apart]
  rfl

private theorem meetRound_second
    (blocks2 : ∀ entry ∈ entry2 :: rest2, ivu2.interval entry.1 = entry.2)
    (beyond : entry1.2.start > entry2.2.stop) :
    meetRound ivu1 ivu2 (between entry1 entry2 rest1 rest2) =
      .ok (match rest2 with
        | [] => none
        | next :: rest2 => some (between entry1 next rest1 rest2), new) := by
  rw [meetRound, meetAdd_beyond proper1 proper2 (.inl beyond), ok_bind]
  refine (if_pos beyond).trans ?_
  cases rest2 with
  | nil => rfl
  | cons next rest2 =>
      have read := blocks2 next (List.mem_cons_of_mem _ List.mem_cons_self)
      show Except.ok (some (⟨new, _, _, _, _, ivu2.interval next.1, _⟩ :
        Meeting w), _) = _
      rw [read]
      rfl

private theorem meetRound_first
    (blocks1 : ∀ entry ∈ entry1 :: rest1, ivu1.interval entry.1 = entry.2)
    (beyond : entry2.2.start > entry1.2.stop) :
    meetRound ivu1 ivu2 (between entry1 entry2 rest1 rest2) =
      .ok (match rest1 with
        | [] => none
        | next :: rest1 => some (between next entry2 rest1 rest2), new) := by
  have isProper1 := proper1 entry1 List.mem_cons_self
  have isProper2 := proper2 entry2 List.mem_cons_self
  have notSecond : ¬ entry1.2.start > entry2.2.stop := by bv_omega
  rw [meetRound, meetAdd_beyond proper1 proper2 (.inr beyond), ok_bind]
  refine (if_neg notSecond).trans ((if_pos beyond).trans ?_)
  cases rest1 with
  | nil => rfl
  | cons next rest1 =>
      have read := blocks1 next (List.mem_cons_of_mem _ List.mem_cons_self)
      show Except.ok (some (⟨new, _, ivu1.interval next.1, _, _, _, _⟩ :
        Meeting w), _) = _
      rw [read]
      rfl

/-- The loop is left with the result as it was in the beginning. -/
theorem meet_eq_new
    (blocks1 : ∀ entry ∈ entry1 :: rest1, ivu1.interval entry.1 = entry.2)
    (blocks2 : ∀ entry ∈ entry2 :: rest2, ivu2.interval entry.1 = entry.2)
    (fuel : Nat) {res : Ivu w}
    (met : meet ivu1 ivu2 fuel (between entry1 entry2 rest1 rest2) =
      some (.ok res)) : res = new := by
  induction fuel generalizing entry1 entry2 rest1 rest2 with
  | zero => exact (nomatch met)
  | succ fuel induction =>
      by_cases beyond1 : entry1.2.start > entry2.2.stop
      · rw [meet, meetRound_second proper1 proper2 blocks2 beyond1] at met
        cases rest2 with
        | nil => exact (Except.ok.inj (Option.some.inj met)).symm
        | cons next rest2 =>
            exact induction proper1 (List.forall_mem_cons.mp proper2).2
              blocks1 (List.forall_mem_cons.mp blocks2).2 met
      · by_cases beyond2 : entry2.2.start > entry1.2.stop
        · rw [meet, meetRound_first proper1 proper2 blocks1 beyond2] at met
          cases rest1 with
          | nil => exact (Except.ok.inj (Option.some.inj met)).symm
          | cons next rest1 =>
              exact induction (List.forall_mem_cons.mp proper1).2 proper2
                (List.forall_mem_cons.mp blocks1).2 blocks2 met
        · have stuck : (between entry1 entry2 rest1 rest2).Stuck :=
            ⟨show entry1.2.start ≤ entry2.2.stop by bv_omega,
              show entry2.2.start ≤ entry1.2.stop by bv_omega⟩
          exact absurd met (stuck.meet_ne_ok _ res)

end Beyond

end Loop

private theorem addFrom_append (ivuSrc ivuDest : Ivu w)
    (left right : List (BitVec w × Nat)) :
    addFrom ivuSrc (left ++ right) ivuDest = (do
      let ivuDest ← addFrom ivuSrc left ivuDest
      addFrom ivuSrc right ivuDest) :=
  List.foldlM_append ..

/-- Intervals are added from the lowest up to a union that lies below them. -/
theorem addFrom_keysOf {ivuSrc ivuDest : Ivu w} {stored below : Stored w}
    (blocks : ∀ entry ∈ stored, ivuSrc.interval entry.1 = entry.2)
    (apart : Apart stored) (represents : ivuDest.Represents below)
    (lower : ∀ v, Within below v → ∀ entry ∈ stored, v < entry.2.start) :
    Returns (addFrom ivuSrc (keysOf stored) ivuDest) fun res =>
      ∃ stored', res.Represents stored' ∧
        ∀ v, Within stored' v ↔ Within below v ∨ Within stored v := by
  induction stored generalizing ivuDest below with
  | nil => exact Returns.pure ⟨below, represents, by simp [Within]⟩
  | cons entry rest induction =>
      obtain ⟨proper, above, restApart⟩ := apart.of_cons
      have here := blocks entry List.mem_cons_self
      have harmless : ivuDest.Harmless entry.2.start entry.2.stop := by
        intro swallowed member other _ reached
        rw [represents.collect] at member
        obtain ⟨old, isOld, same, -⟩ := mem_keysOf.mp member
        rw [same, represents.interval isOld] at reached
        have isBelow := lower old.2.start
          ⟨old, isOld, BitVec.le_refl _, represents.apart.proper old isOld⟩
          entry List.mem_cons_self
        bv_omega
      obtain ⟨⟨ivuDest', flag⟩, added, grown, kept, within, -⟩ :=
        represents.ivUnionAddInterval proper harmless
      have notStart : ¬ entry.2.stop = entry.2.start := by bv_omega
      have step : addFrom ivuSrc (keys entry) ivuDest = .ok ivuDest' := by
        simp only [addFrom, keys, List.foldlM_cons, List.foldlM_nil, here,
          if_true, added, if_neg notStart, ok_bind, pure_bind]
        rfl
      have stillLower : ∀ v, Within grown v → ∀ later ∈ rest,
          v < later.2.start := by
        intro v isWithin later member
        have beyond := above later member
        rcases (within v).mp isWithin with old | inside
        · exact lower v old later (List.mem_cons_of_mem _ member)
        · have := inside.2
          bv_omega
      rw [keysOf_cons, addFrom_append, step, ok_bind]
      apply (induction (List.forall_mem_cons.mp blocks).2 restApart kept
        stillLower).mono
      intro res done
      obtain ⟨stored', final, isWithin⟩ := done
      refine ⟨stored', final, fun v => ?_⟩
      rw [isWithin, within, within_cons, or_assoc]

private theorem ivUnionAddIvUnion_new {ivuSrc : Ivu w} {stored : Stored w}
    (represents : ivuSrc.Represents stored) :
    Returns ((new : Ivu w).ivUnionAddIvUnion ivuSrc) fun res =>
      ∀ v, res.Holds v ↔ ivuSrc.Holds v := by
  have copied := @addFrom_keysOf w ivuSrc new stored []
    (fun entry member => represents.interval member) represents.apart
    represents_new (by simp [Within])
  obtain ⟨res, added, stored', kept, within⟩ := copied
  refine ⟨res, ?_, fun v => ?_⟩
  · rw [ivUnionAddIvUnion, represents.collect, added, ok_bind,
      tlAssert_of kept.isSane]
    rfl
  · rw [kept.holds_iff, represents.holds_iff, within]
    simp [Within]

/-- The call returns, with `NULL` if no address is in both unions, and else
with a union of just the addresses that are in both. -/
def IntersectsRightly (unions : Nat → Ivu w) (a b : Nat) : Prop :=
  ∃ fuel res, ivUnionIntersect fuel unions a b = some (.ok res) ∧
    ((¬ ∃ v, (unions a).Holds v ∧ (unions b).Holds v) → res = none) ∧
    ((∃ v, (unions a).Holds v ∧ (unions b).Holds v) →
      ∃ ivu, res = some ivu ∧
        ∀ v, ivu.Holds v ↔ (unions a).Holds v ∧ (unions b).Holds v)

/-- The number of keys of neither union is seen as zero. -/
def BothCounted (unions : Nat → Ivu w) (a b : Nat) : Prop :=
  asInt (unions a).sizeFM ≠ 0 ∧ asInt (unions b).sizeFM ≠ 0

section Intersect

variable {unions : Nat → Ivu w}
  (built : ∀ ivu, ∃ stored, (unions ivu).Represents stored) {a b : Nat}

private theorem intersect_uncounted (uncounted : ¬ BothCounted unions a b)
    (fuel : Nat) : ivUnionIntersect fuel unions a b = some (.ok none) := by
  apply if_pos
  simp only [BothCounted, not_and_or, not_not] at uncounted
  exact uncounted

include built

private theorem intersect_same (counted : BothCounted unions a a) :
    IntersectsRightly unions a a := by
  obtain ⟨stored, represents⟩ := built a
  obtain ⟨res, copied, holds⟩ := ivUnionAddIvUnion_new represents
  have notNull : ¬ (asInt (unions a).sizeFM = 0 ∨
      asInt (unions a).sizeFM = 0) := by
    rintro (zero | zero)
    · exact counted.1 zero
    · exact counted.2 zero
  refine ⟨0, some res, ?_, fun none => absurd ?_ none,
    fun _ => ⟨res, rfl, fun v => ?_⟩⟩
  · rw [ivUnionIntersect, if_neg notNull, if_pos rfl, copied, ok_bind,
      tlAssert_of represents.isSane]
    rfl
  · -- a union that has keys has an address
    cases stored with
    | nil =>
        refine absurd ?_ counted.1
        rw [sizeFM, represents.collect]
        simp [keysOf, asInt]
    | cons entry rest =>
        have inside : (unions a).Holds entry.2.start :=
          (represents.holds_iff _).mpr ⟨entry, List.mem_cons_self,
            BitVec.le_refl _, represents.apart.proper entry
              List.mem_cons_self⟩
        exact ⟨entry.2.start, inside, inside⟩
  · rw [holds, and_self_iff]

/-- Of two unions the call returns an empty one, if it returns. -/
theorem intersect_differ (counted : BothCounted unions a b) (differ : a ≠ b)
    {fuel : Nat} {res : Option (Ivu w)}
    (done : ivUnionIntersect fuel unions a b = some (.ok res)) :
    res = some new := by
  obtain ⟨stored1, represents1⟩ := built a
  obtain ⟨stored2, represents2⟩ := built b
  have notNull : ¬ (asInt (unions a).sizeFM = 0 ∨
      asInt (unions b).sizeFM = 0) := by
    rintro (zero | zero)
    · exact counted.1 zero
    · exact counted.2 zero
  rw [ivUnionIntersect, if_neg notNull, if_neg differ, represents1.collect,
    represents2.collect] at done
  cases stored1 with
  | nil => exact (nomatch done)
  | cons entry1 rest1 =>
      cases stored2 with
      | nil => exact (nomatch done)
      | cons entry2 rest2 =>
          have read1 := represents1.interval
            (List.mem_cons_self (a := entry1) (l := rest1))
          have read2 := represents2.interval
            (List.mem_cons_self (a := entry2) (l := rest2))
          simp only [keysOf_cons, keys, List.cons_append, List.nil_append,
            read1, read2] at done
          obtain ⟨met, isMet, done⟩ := Option.map_eq_some_iff.mp done
          obtain ⟨found, rfl, done⟩ := bind_eq_ok.mp done
          have empty := meet_eq_new represents1.apart.proper
            represents2.apart.proper
            (fun entry member => represents1.interval member)
            (fun entry member => represents2.interval member) fuel isMet
          rw [tlAssert_of represents1.isSane, ok_bind,
            tlAssert_of represents2.isSane] at done
          rw [← Except.ok.inj done, empty]

/-- The intersection is as claimed just if it is known beforehand: one of the
unions has no keys, and there is no address to be found, or the two are one
and the same. -/
theorem iv_union_intersect_right_iff :
    IntersectsRightly unions a b ↔
      (BothCounted unions a b ∧ a = b) ∨
      (¬ BothCounted unions a b ∧
        ¬ ∃ v, (unions a).Holds v ∧ (unions b).Holds v) := by
  by_cases counted : BothCounted unions a b
  · by_cases same : a = b
    · subst same
      exact iff_of_true (intersect_same built counted) (.inl ⟨counted, rfl⟩)
    · refine iff_of_false ?_ ?_
      · rintro ⟨fuel, res, done, null, common⟩
        obtain rfl := intersect_differ built counted same done
        by_cases shared : ∃ v, (unions a).Holds v ∧ (unions b).Holds v
        · obtain ⟨ivu, isNew, holds⟩ := common shared
          obtain rfl := Option.some.inj isNew
          obtain ⟨v, both⟩ := shared
          obtain ⟨entry, member, -⟩ :=
            (represents_new.holds_iff v).mp ((holds v).mpr both)
          exact List.not_mem_nil member
        · exact (nomatch null shared)
      · rintro (⟨-, isSame⟩ | ⟨uncounted, -⟩)
        · exact same isSame
        · exact uncounted counted
  · have null := @intersect_uncounted w unions a b counted
    constructor
    · rintro ⟨fuel, res, done, -, common⟩
      refine .inr ⟨counted, fun shared => ?_⟩
      obtain ⟨ivu, rfl, -⟩ := common shared
      rw [null fuel] at done
      exact (nomatch done)
    · rintro (⟨isCounted, -⟩ | ⟨-, disjoint⟩)
      · exact absurd isCounted counted
      · exact ⟨0, none, null 0, fun _ => rfl,
          fun shared => absurd shared disjoint⟩

end Intersect

/-- A loop and the loop that follows it at once. -/
def adjacent (ivu : Nat) : Ivu 64 :=
  match ivu with
  | 0 => single 0x400000 0x400010
  | _ => single 0x400010 0x400020

theorem iv_union_intersect_right_iff_adjacent :
    IntersectsRightly adjacent 0 0 := by
  apply (iv_union_intersect_right_iff ?_).mpr
  · exact .inl ⟨by unfold BothCounted; decide +kernel, rfl⟩
  · intro ivu
    match ivu with
    | 0 => exact single_represents (by decide)
    | ivu + 1 => exact single_represents (by decide)

private theorem adjacent_round :
    meetRound (adjacent 0) (adjacent 1)
      (between (0, ⟨0x400000#64, 0x400010#64⟩) (0, ⟨0x400010, 0x400020⟩)
        [] []) = .ok (some (between (0, ⟨0x400000, 0x400010⟩)
          (0, ⟨0x400010, 0x400020⟩) [] []), new) :=
  rfl

private theorem adjacent_meet (fuel : Nat) :
    meet (adjacent 0) (adjacent 1) fuel
      (between (0, ⟨0x400000#64, 0x400010#64⟩) (0, ⟨0x400010, 0x400020⟩)
        [] []) = none := by
  induction fuel with
  | zero => rfl
  | succ fuel induction =>
      rw [meet, adjacent_round]
      exact induction

/-- No address is in both, but the loop never ends. -/
theorem iv_union_intersect_hangs :
    (∀ fuel, ivUnionIntersect fuel adjacent 0 1 = none) ∧
      ¬ IntersectsRightly adjacent 0 1 := by
  have hangs : ∀ fuel, ivUnionIntersect fuel adjacent 0 1 = none := by
    intro fuel
    show Option.map _ (meet (adjacent 0) (adjacent 1) fuel
      (between (0, ⟨0x400000#64, 0x400010#64⟩) (0, ⟨0x400010, 0x400020⟩)
        [] [])) = none
    rw [adjacent_meet, Option.map_none]
  refine ⟨hangs, ?_⟩
  rintro ⟨fuel, res, done, -⟩
  rw [hangs fuel] at done
  exact (nomatch done)

end Ivu
end HelgrindPlus
