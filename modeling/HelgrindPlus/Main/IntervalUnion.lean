import HelgrindPlus.Main.Intervals

/-!
# Adding an interval to a union

An interval is added to a union whose entries are the end points of intervals
that lie apart.  The stored intervals fall into those below the new one, those
that touch it, and those above it.  The walk over the keys sees the second
part and at most one of the third, and the second part is swallowed.
-/

namespace HelgrindPlus

open Outcome WordFM

namespace Interval

variable {w : Nat} {dest src : Interval w}

/-- What `joinInterval` leaves in `dest`. -/
def join (dest src : Interval w) : Interval w :=
  ⟨if src.start < dest.start then src.start else dest.start,
    if src.stop > dest.stop then src.stop else dest.stop⟩

/-- No address lies between the two. -/
structure Touches (dest src : Interval w) : Prop where
  left : src.start ≤ dest.stop
  right : dest.start ≤ src.stop

private theorem join_contains (touches : dest.Touches src) (v : BitVec w) :
    (join dest src).Contains v ↔ dest.Contains v ∨ src.Contains v := by
  obtain ⟨left, right⟩ := touches
  simp only [Contains, join]
  split_ifs <;> bv_omega

private theorem join_proper (proper : src.start < src.stop)
    (properDest : dest.start < dest.stop) :
    (join dest src).start < (join dest src).stop := by
  simp only [join]
  split_ifs <;> bv_omega

theorem join_touches {other : Interval w} (touches : dest.Touches other) :
    (join dest src).Touches other := by
  obtain ⟨left, right⟩ := touches
  constructor
  · simp only [join]
    split_ifs <;> bv_omega
  · simp only [join]
    split_ifs <;> bv_omega

private theorem lt_join_start {bound : BitVec w} (first : bound < dest.start)
    (second : bound < src.start) : bound < (join dest src).start := by
  simp only [join]
  split_ifs <;> assumption

private theorem join_stop_lt {bound : BitVec w} (first : dest.stop < bound)
    (second : src.stop < bound) : (join dest src).stop < bound := by
  simp only [join]
  split_ifs <;> assumption

end Interval

namespace Ivu

variable {w : Nat}

/-- The interval that has swallowed the others. -/
def hull (iv : Interval w) (touched : Stored w) : Interval w :=
  touched.foldl (fun iv entry => iv.join entry.2) iv

section Hull

variable {iv : Interval w} {touched : Stored w}

theorem hull_proper (proper : iv.start < iv.stop)
    (each : ∀ entry ∈ touched, entry.2.start < entry.2.stop) :
    (hull iv touched).start < (hull iv touched).stop := by
  induction touched generalizing iv with
  | nil => exact proper
  | cons entry rest induction =>
      exact induction
        (Interval.join_proper (each entry List.mem_cons_self) proper)
        fun later member => each later (List.mem_cons_of_mem _ member)

theorem hull_contains
    (touches : ∀ entry ∈ touched, iv.Touches entry.2) (v : BitVec w) :
    (hull iv touched).Contains v ↔ iv.Contains v ∨ Within touched v := by
  induction touched generalizing iv with
  | nil => simp [hull, Within]
  | cons entry rest induction =>
      have touching : ∀ later ∈ rest, (iv.join entry.2).Touches later.2 :=
        fun later member => Interval.join_touches
          (touches later (List.mem_cons_of_mem _ member))
      have here := Interval.join_contains
        (touches entry List.mem_cons_self) v
      rw [hull, List.foldl_cons]
      refine (induction touching).trans ?_
      rw [here]
      simp only [Within, List.exists_mem_cons_iff, or_assoc]

theorem lt_hull_start {bound : BitVec w} (first : bound < iv.start)
    (each : ∀ entry ∈ touched, bound < entry.2.start) :
    bound < (hull iv touched).start := by
  induction touched generalizing iv with
  | nil => exact first
  | cons entry rest induction =>
      exact induction
        (Interval.lt_join_start first (each entry List.mem_cons_self))
        fun later member => each later (List.mem_cons_of_mem _ member)

theorem hull_stop_lt {bound : BitVec w} (first : iv.stop < bound)
    (each : ∀ entry ∈ touched, entry.2.stop < bound) :
    (hull iv touched).stop < bound := by
  induction touched generalizing iv with
  | nil => exact first
  | cons entry rest induction =>
      exact induction
        (Interval.join_stop_lt first (each entry List.mem_cons_self))
        fun later member => each later (List.mem_cons_of_mem _ member)

end Hull

/-- The stored intervals below, at and above a new one. -/
structure Splits (iv : Interval w) (before touched after : Stored w) :
    Prop where
  before : ∀ entry ∈ before, entry.2.stop < iv.start
  touched : ∀ entry ∈ touched, iv.Touches entry.2
  after : ∀ entry ∈ after, iv.stop < entry.2.start

theorem Apart.exists_splits {stored : Stored w} (apart : Apart stored)
    (iv : Interval w) :
    ∃ before touched after, stored = before ++ (touched ++ after) ∧
      Splits iv before touched after := by
  induction stored with
  | nil => exact ⟨[], [], [], rfl, by simp, by simp, by simp⟩
  | cons entry rest induction =>
      obtain ⟨proper, below, restApart⟩ := apart.of_cons
      obtain ⟨before, touched, after, rfl, splits⟩ := induction restApart
      by_cases low : entry.2.stop < iv.start
      · refine ⟨entry :: before, touched, after, rfl, ?_, splits.touched,
          splits.after⟩
        exact List.forall_mem_cons.mpr ⟨low, splits.before⟩
      · -- what follows an interval that is not below is not below either
        have none : before = [] := by
          apply List.eq_nil_iff_forall_not_mem.mpr
          intro later member
          have first := below later (List.mem_append_left _ member)
          have second := splits.before later member
          have third := restApart.proper later
            (List.mem_append_left _ member)
          bv_omega
        subst none
        by_cases high : iv.stop < entry.2.start
        · have noneTouched : touched = [] := by
            apply List.eq_nil_iff_forall_not_mem.mpr
            intro later member
            have first := below later
              (List.mem_append_right _ (List.mem_append_left _ member))
            have second := (splits.touched later member).left
            bv_omega
          subst noneTouched
          refine ⟨[], [], entry :: after, rfl, by simp, by simp, ?_⟩
          exact List.forall_mem_cons.mpr ⟨high, splits.after⟩
        · refine ⟨[], entry :: touched, after, rfl, by simp, ?_,
            splits.after⟩
          exact List.forall_mem_cons.mpr
            ⟨⟨by bv_omega, by bv_omega⟩, splits.touched⟩

theorem Apart.sublist {stored fewer : Stored w} (apart : Apart stored)
    (sublist : List.Sublist fewer stored) : Apart fewer :=
  ⟨fun entry member => apart.proper entry (sublist.subset member),
    apart.apart.sublist sublist⟩

theorem Apart.sorted {stored : Stored w} (apart : Apart stored) :
    OrderedMap.Sorted cmpUnsignedWords (keysOf stored) := by
  induction stored with
  | nil => exact List.Pairwise.nil
  | cons entry rest induction =>
      obtain ⟨proper, below, restApart⟩ := apart.of_cons
      have above : ∀ item ∈ keysOf rest, entry.2.stop < item.1 := by
        intro item member
        obtain ⟨later, isLater, -, isKey⟩ := mem_keysOf.mp member
        have first := below later isLater
        have second := restApart.proper later isLater
        rcases isKey with same | same <;> rw [same] <;> bv_omega
      refine List.pairwise_cons.mpr ⟨?_, List.pairwise_cons.mpr
        ⟨?_, induction restApart⟩⟩
      · intro item member
        rw [cmp_neg_iff]
        obtain rfl | later := List.mem_cons.mp member
        · exact proper
        · have := above item later
          bv_omega
      · intro item member
        exact cmp_neg_iff.mpr (above item member)

/-- The new interval is part of the old one. -/
def Included (iv ivc : Interval w) : Prop :=
  iv.stop ≤ ivc.stop ∧ iv.start ≥ ivc.start

instance (iv ivc : Interval w) : Decidable (Included iv ivc) :=
  inferInstanceAs (Decidable (_ ∧ _))

section Scan

variable {ivu : Ivu w} {iv : Nat} {fresh : Interval w}

private theorem intersects_of_touches {ivc : Interval w}
    (touches : fresh.Touches ivc) (outside : ¬ Included fresh ivc) :
    intersects ivc fresh = true := by
  obtain ⟨left, right⟩ := touches
  unfold Included at outside
  simp only [intersects, Bool.or_eq_true, Bool.and_eq_true,
    decide_eq_true_eq]
  bv_omega

theorem scan_touched (isFresh : ivu.interval iv = fresh)
    {items : List (BitVec w × Nat)}
    (touches : ∀ item ∈ items, fresh.Touches (ivu.interval item.2))
    (outside : ∀ item ∈ items, ¬ Included fresh (ivu.interval item.2))
    (rest : List (BitVec w × Nat)) (tmpXa : List Nat) :
    ivu.scan iv (items ++ rest) tmpXa =
      ivu.scan iv rest (tmpXa ++ items.map Prod.snd) := by
  induction items generalizing tmpXa with
  | nil => simp
  | cons item items induction =>
      obtain ⟨key, ptr⟩ := item
      have touching := touches (key, ptr) List.mem_cons_self
      have notIncluded := outside (key, ptr) List.mem_cons_self
      have found := intersects_of_touches touching notIncluded
      have left := touching.left
      have goesOn : ¬ fresh.stop < (ivu.interval ptr).start := by bv_omega
      have tail := induction
        (fun item member => touches item (List.mem_cons_of_mem _ member))
        (fun item member => outside item (List.mem_cons_of_mem _ member))
        (tmpXa ++ [ptr])
      unfold Included at notIncluded
      rw [List.cons_append, scan, isFresh, if_neg notIncluded, found, if_pos rfl,
        if_neg goesOn, tail, List.map_cons, List.append_assoc,
        List.singleton_append]

theorem scan_after (isFresh : ivu.interval iv = fresh)
    (proper : fresh.start < fresh.stop) {items : List (BitVec w × Nat)}
    (above : ∀ item ∈ items, fresh.stop < (ivu.interval item.2).start ∧
      (ivu.interval item.2).start < (ivu.interval item.2).stop)
    (tmpXa : List Nat) :
    ivu.scan iv items tmpXa = .ok (ivu, tmpXa, false) := by
  cases items with
  | nil => rfl
  | cons item items =>
      obtain ⟨key, ptr⟩ := item
      obtain ⟨beyond, properItem⟩ := above (key, ptr) List.mem_cons_self
      have notIncluded : ¬ (fresh.stop ≤ (ivu.interval ptr).stop ∧
          fresh.start ≥ (ivu.interval ptr).start) := by bv_omega
      have notFound : intersects (ivu.interval ptr) fresh = false := by
        simp only [intersects, Bool.or_eq_false_iff, Bool.and_eq_false_iff,
          decide_eq_false_iff_not]
        bv_omega
      rw [scan, isFresh, if_neg notIncluded, notFound, if_pos beyond]
      rfl

end Scan

section Blocks

variable {ivu : Ivu w} {ptr other : Nat}

@[simp] theorem setInterval_self (ivu : Ivu w) (ptr : Nat) :
    ivu.setInterval ptr (ivu.interval ptr) = ivu := by
  simp [setInterval, interval]

private theorem setInterval_setInterval (first second : Interval w) :
    (ivu.setInterval ptr first).setInterval ptr second =
      ivu.setInterval ptr second := by
  simp [setInterval]

private theorem interval_setInterval (iv : Interval w) :
    (ivu.setInterval ptr iv).interval ptr = iv := by
  simp [setInterval, interval]

theorem interval_setInterval_of_ne (differ : other ≠ ptr) (iv : Interval w) :
    (ivu.setInterval ptr iv).interval other = ivu.interval other := by
  simp [setInterval, interval, Function.update_of_ne differ]

private theorem joinInterval_false {dest src : Nat} (differ : src ≠ dest) :
    ivu.joinInterval dest src false =
      .ok (ivu.setInterval dest
        ((ivu.interval dest).join (ivu.interval src))) := by
  unfold joinInterval Interval.join
  by_cases lower : (ivu.interval src).start < (ivu.interval dest).start
  · by_cases higher : (ivu.interval src).stop > (ivu.interval dest).stop
    · simp [lower, higher, moveKey, interval_setInterval,
        interval_setInterval_of_ne differ, setInterval_setInterval,
        pure, Except.pure]
    · simp [lower, higher, moveKey, interval_setInterval,
        interval_setInterval_of_ne differ, pure, Except.pure]
  · by_cases higher : (ivu.interval src).stop > (ivu.interval dest).stop
    · simp [lower, higher, moveKey, pure, Except.pure]
    · simp only [lower, higher, if_false, pure_bind]
      exact congrArg Except.ok (setInterval_self ivu dest).symm

/-- An interval that is part of the other leaves it as it is. -/
theorem joinInterval_included {dest src : Nat}
    (included : Included (ivu.interval src) (ivu.interval dest))
    (upDateIvu : Bool) :
    ivu.joinInterval dest src upDateIvu = .ok ivu := by
  obtain ⟨stop, start⟩ := included
  have notLower : ¬ (ivu.interval src).start < (ivu.interval dest).start := by
    bv_omega
  have notHigher : ¬ (ivu.interval src).stop > (ivu.interval dest).stop := by
    bv_omega
  simp [joinInterval, notLower, notHigher, pure, Except.pure]

end Blocks

/-- What the second loop has to do: the intervals still to be swallowed stand
between the two parts that stay. -/
structure Absorbing (ivu : Ivu w) (iv : Nat) (fresh : Interval w)
    (before touched after : Stored w) : Prop where
  collect : ivu.collect = keysOf (before ++ (touched ++ after))
  blocks : ∀ entry ∈ before ++ (touched ++ after),
    ivu.blocks entry.1 = ⟨entry.2, true⟩
  fresh : ivu.blocks iv = ⟨fresh, true⟩
  apart : Apart (before ++ (touched ++ after))
  distinct : ((before ++ (touched ++ after)).map Prod.fst).Nodup
  old : ∀ entry ∈ before ++ (touched ++ after), entry.1 < iv

section Absorb

variable {ivu : Ivu w} {iv : Nat} {fresh : Interval w}
  {before touched after : Stored w} {entry : Nat × Interval w}

theorem keysOf_split (left right : Stored w) :
    keysOf (left ++ entry :: right) = keysOf left ++
      (entry.2.start, entry.1) :: (entry.2.stop, entry.1) :: keysOf right :=
  keysOf_append

theorem Apart.remove_keys {left right : Stored w}
    (apart : Apart (left ++ entry :: right)) :
    OrderedMap.remove cmpUnsignedWords entry.2.stop
        (OrderedMap.remove cmpUnsignedWords entry.2.start
          (keysOf (left ++ entry :: right))) = keysOf (left ++ right) := by
  have sorted := apart.sorted
  rw [keysOf_split] at sorted ⊢
  have withoutStart := OrderedMap.remove_same cmpUnsignedWords_total sorted
    (cmp_eq_zero_iff.mpr (rfl : entry.2.start = entry.2.start))
  have removed := sorted.remove entry.2.start
  rw [withoutStart] at removed ⊢
  rw [keysOf_append]
  exact OrderedMap.remove_same cmpUnsignedWords_total removed
    (cmp_eq_zero_iff.mpr rfl)

theorem Apart.lookup_start {left right : Stored w}
    (apart : Apart (left ++ entry :: right)) :
    OrderedMap.lookup cmpUnsignedWords entry.2.start
      (keysOf (left ++ entry :: right)) =
        some (entry.2.start, entry.1) := by
  have sorted := apart.sorted
  rw [keysOf_split] at sorted ⊢
  exact OrderedMap.lookup_same cmpUnsignedWords_total sorted
    (cmp_eq_zero_iff.mpr rfl)

theorem Absorbing.absorb_first
    (absorbing : ivu.Absorbing iv fresh before (entry :: touched) after) :
    Returns (absorb iv ivu entry.1) fun ivu' =>
      ivu'.Absorbing iv (fresh.join entry.2) before touched after ∧
      ivu'.interval entry.1 = ⟨junk w, junk w⟩ ∧
      ivu'.allocd = ivu.allocd := by
  have member : entry ∈ before ++ (entry :: touched ++ after) := by simp
  have here := absorbing.blocks entry member
  have differ : entry.1 ≠ iv := Nat.ne_of_lt (absorbing.old entry member)
  have isEntry : ivu.interval entry.1 = entry.2 := by rw [interval, here]
  have isFresh : ivu.interval iv = fresh := by
    rw [interval, absorbing.fresh]
  have found : ivu.lookupFM entry.2.start = true := by
    rw [lookupFM, absorbing.collect]
    exact congrArg Option.isSome absorbing.apart.lookup_start
  have computed : absorb iv ivu entry.1 = .ok
      { collect := keysOf (before ++ (touched ++ after))
        blocks := Function.update
          (Function.update ivu.blocks iv ⟨fresh.join entry.2, true⟩)
          entry.1 ⟨⟨junk w, junk w⟩, false⟩
        allocd := ivu.allocd } := by
    rw [absorb, isEntry, if_pos found]
    have removed : OrderedMap.remove cmpUnsignedWords entry.2.stop
        (OrderedMap.remove cmpUnsignedWords entry.2.start ivu.collect) =
          keysOf (before ++ (touched ++ after)) := by
      rw [absorbing.collect]
      exact absorbing.apart.remove_keys
    simp only [joinInterval_false differ, ok_bind, delFromFM, setInterval,
      interval, free, Function.update_of_ne differ, here, absorbing.fresh,
      if_true, removed]
  rw [computed]
  have fewer : List.Sublist (before ++ (touched ++ after))
      (before ++ (entry :: touched ++ after)) :=
    List.Sublist.append_left (List.sublist_cons_self entry _) before
  have others : ∀ other ∈ before ++ (touched ++ after),
      other ∈ before ++ (entry :: touched ++ after) ∧ other.1 ≠ entry.1 := by
    intro other isOther
    refine ⟨fewer.subset isOther, fun same => ?_⟩
    have moved : ((before ++ (entry :: touched ++ after)).map
        Prod.fst).Perm (entry.1 :: (before ++ (touched ++ after)).map
          Prod.fst) :=
      (List.perm_middle.map Prod.fst)
    have nodup := moved.nodup_iff.mp absorbing.distinct
    exact (List.nodup_cons.mp nodup).1
      (same ▸ List.mem_map_of_mem isOther)
  refine Returns.ok ⟨⟨rfl, ?_, ?_, ?_, ?_, ?_⟩, ?_, rfl⟩
  · intro other isOther
    obtain ⟨stored, notEntry⟩ := others other isOther
    have notFresh : other.1 ≠ iv :=
      Nat.ne_of_lt (absorbing.old other stored)
    simp only [Function.update_of_ne notEntry, Function.update_of_ne notFresh]
    exact absorbing.blocks other stored
  · simp only [Function.update_of_ne differ.symm, Function.update_self]
  · exact absorbing.apart.sublist fewer
  · exact absorbing.distinct.sublist (fewer.map Prod.fst)
  · exact fun other isOther => absorbing.old other (others other isOther).1
  · simp only [interval, Function.update_self]

/-- The second visit reads the block that has been freed. -/
theorem absorb_again {ptr : Nat}
    (freed : ivu.interval ptr = ⟨junk w, junk w⟩)
    {stored : Stored w} (collect : ivu.collect = keysOf stored)
    (avoids : Avoids stored (junk w)) : absorb iv ivu ptr = .ok ivu := by
  have notFound : ivu.lookupFM (junk w) = false := by
    rw [lookupFM, collect, OrderedMap.lookup_eq_none avoids.absent]
    rfl
  rw [absorb, freed, notFound]
  rfl

theorem atOrAfter_keys {key : BitVec w} (reached : key ≤ entry.2.stop) :
    OrderedMap.atOrAfter cmpUnsignedWords key (keys entry) =
      if key ≤ entry.2.start then keys entry
      else [(entry.2.stop, entry.1)] := by
  have last : OrderedMap.atOrAfter cmpUnsignedWords key
      [(entry.2.stop, entry.1)] = [(entry.2.stop, entry.1)] :=
    List.filter_cons_of_pos (by simpa [cmp_nonneg_iff] using reached)
  split_ifs with early
  · exact (List.filter_cons_of_pos
      (by simpa [cmp_nonneg_iff] using early)).trans (congrArg _ last)
  · exact (List.filter_cons_of_neg
      (by simpa [cmp_nonneg_iff] using early)).trans last

/-- Where a swallowed interval is visited twice, the freed block does not
name an end point that is still in the map. -/
def Safe (start : BitVec w) (before touched after : Stored w) : Prop :=
  ∀ entry ∈ touched, start ≤ entry.2.start →
    ∀ other ∈ before ++ (touched ++ after),
      other.2.stop < start ∨ entry.2.stop < other.2.start →
      other.2.start ≠ junk w ∧ other.2.stop ≠ junk w

theorem Safe.of_cons {start : BitVec w}
    (safe : Safe start before (entry :: touched) after) :
    Safe start before touched after := by
  intro swallowed member late other isOther
  apply safe swallowed (List.mem_cons_of_mem _ member) late other
  simp only [List.mem_append, List.mem_cons] at isOther ⊢
  tauto

/-- The one or two visits of an interval. -/
theorem Absorbing.absorb_visits {start : BitVec w}
    (absorbing : ivu.Absorbing iv fresh before (entry :: touched) after)
    (below : ∀ entry ∈ before, entry.2.stop < start)
    (safe : Safe start before (entry :: touched) after) :
    Returns (((if start ≤ entry.2.start then keys entry
        else [(entry.2.stop, entry.1)]).map Prod.snd).foldlM (absorb iv) ivu)
      fun ivu' =>
        ivu'.Absorbing iv (fresh.join entry.2) before touched after ∧
        ivu'.allocd = ivu.allocd := by
  obtain ⟨ivu', first, absorbed, freed, allocd⟩ := absorbing.absorb_first
  split_ifs with early
  · have avoids : Avoids (before ++ (touched ++ after)) (junk w) := by
      intro other isOther
      have later := (absorbing.apart.of_append.2.of_cons).2.1
      apply safe entry List.mem_cons_self early other
      · exact (List.Sublist.append_left
          (List.sublist_cons_self entry _) before).subset isOther
      · rcases List.mem_append.mp isOther with isBefore | isLater
        · exact .inl (below other isBefore)
        · exact .inr (later other isLater)
    have again : absorb iv ivu' entry.1 = .ok ivu' :=
      absorb_again freed absorbed.collect avoids
    refine ⟨ivu', ?_, absorbed, allocd⟩
    simp only [keys, List.map_cons, List.map_nil, List.foldlM_cons,
      List.foldlM_nil, first, again, ok_bind, pure, Except.pure]
  · refine ⟨ivu', ?_, absorbed, allocd⟩
    simp only [List.map_cons, List.map_nil, List.foldlM_cons,
      List.foldlM_nil, first, ok_bind, pure, Except.pure]

theorem Absorbing.absorb_touched {start : BitVec w}
    (absorbing : ivu.Absorbing iv fresh before touched after)
    (below : ∀ entry ∈ before, entry.2.stop < start)
    (reached : ∀ entry ∈ touched, start ≤ entry.2.stop)
    (safe : Safe start before touched after) :
    Returns (((OrderedMap.atOrAfter cmpUnsignedWords start
        (keysOf touched)).map Prod.snd).foldlM (absorb iv) ivu) fun ivu' =>
      ivu'.Absorbing iv (hull fresh touched) before [] after ∧
      ivu'.allocd = ivu.allocd := by
  induction touched generalizing ivu fresh with
  | nil => exact Returns.pure ⟨absorbing, rfl⟩
  | cons entry rest induction =>
      rw [keysOf_cons, atOrAfter_append,
        atOrAfter_keys (reached entry List.mem_cons_self), List.map_append,
        List.foldlM_append]
      apply (absorbing.absorb_visits below safe).bind
      intro ivu' absorbed
      obtain ⟨absorbed, allocd⟩ := absorbed
      apply (induction absorbed
        (fun later member => reached later (List.mem_cons_of_mem _ member))
        safe.of_cons).mono
      intro ivu'' done
      exact ⟨done.1, done.2.trans allocd⟩

end Absorb

end Ivu
end HelgrindPlus
