import HelgrindPlus.Main.IntervalUnion

/-!
# What a union of intervals contains

One call of `HG_(ivUnionAddInterval)` keeps the union canonical and adds just
the addresses of its interval, unless the word `0xDD..DD` in a freed block is
taken for an end point that is still in the map.  From this follows what every
sequence of calls builds.
-/

namespace HelgrindPlus

open Outcome WordFM

namespace Ivu

variable {w : Nat}

/-- No interval that the new one swallows and that begins at or after it is
read again as an end point of an interval that stays, or is still to be
swallowed. -/
def Harmless (ivu : Ivu w) (start stop : BitVec w) : Prop :=
  ∀ swallowed ∈ ivu.collect, ∀ other ∈ ivu.collect,
    start ≤ (ivu.interval swallowed.2).start →
    (ivu.interval swallowed.2).start ≤ stop →
    ¬ Included ⟨start, stop⟩ (ivu.interval swallowed.2) →
    (ivu.interval other.2).stop < start ∨
      (ivu.interval swallowed.2).stop < (ivu.interval other.2).start →
    other.1 ≠ junk w

section Call

variable {ivu : Ivu w} {stored : Stored w} {iv : Interval w}
  {before touched after : Stored w}

theorem Represents.interval (represents : ivu.Represents stored)
    {entry : Nat × Interval w} (member : entry ∈ stored) :
    ivu.interval entry.1 = entry.2 := by
  rw [Ivu.interval, represents.blocks entry member]

theorem Represents.zalloc (represents : ivu.Represents stored)
    (iv : Interval w) : (ivu.zalloc iv).1.Represents stored := by
  refine ⟨represents.collect, fun entry member => ?_, represents.apart,
    represents.distinct, fun entry member => ?_⟩
  · have older := represents.old entry member
    simp only [Ivu.zalloc, Function.update_of_ne (Nat.ne_of_lt older)]
    exact represents.blocks entry member
  · exact Nat.lt_succ_of_lt (represents.old entry member)

private theorem scan_included {ivu' : Ivu w} {ptr fresh : Nat} {key : BitVec w}
    {more : List (BitVec w × Nat)}
    (included : Included (ivu.interval fresh) (ivu.interval ptr))
    (freed : ivu.free fresh = .ok ivu') (tmpXa : List Nat) :
    ivu.scan fresh ((key, ptr) :: more) tmpXa = .ok (ivu', tmpXa, true) := by
  have joined := joinInterval_included included true
  unfold Included at included
  rw [scan, if_pos included, joined, ok_bind, freed]
  rfl

/-- Only the first interval at or above the new one can include it. -/
theorem Splits.not_included {head : Nat × Interval w}
    (splits : Splits iv before (head :: touched) after)
    (apart : Apart (head :: (touched ++ after)))
    (outside : ¬ Included iv head.2) :
    ∀ entry ∈ head :: touched, ¬ Included iv entry.2 := by
  intro entry member
  obtain rfl | later := List.mem_cons.mp member
  · exact outside
  · have above := apart.of_cons.2.1 entry (List.mem_append_left _ later)
    have reached := (splits.touched head List.mem_cons_self).right
    intro included
    have := included.2
    bv_omega

/-- An interval that is part of no stored one has a new address. -/
theorem Splits.exists_new (splits : Splits iv before touched after)
    (apart : Apart (before ++ (touched ++ after)))
    (proper : iv.start < iv.stop)
    (outside : ∀ entry ∈ touched, ¬ Included iv entry.2) :
    ∃ v, iv.Contains v ∧ ¬ Within (before ++ (touched ++ after)) v := by
  obtain ⟨-, upper⟩ := apart.of_append
  cases touched with
  | nil =>
      refine ⟨iv.start, ⟨BitVec.le_refl _, proper⟩, ?_⟩
      rintro ⟨entry, member, inside⟩
      have := inside.1
      have := inside.2
      rcases List.mem_append.mp member with isBefore | isAfter
      · have := splits.before entry isBefore
        bv_omega
      · have := splits.after entry isAfter
        bv_omega
  | cons head rest =>
      obtain ⟨properHead, above, -⟩ := upper.of_cons
      have touching := splits.touched head List.mem_cons_self
      have left := touching.left
      have right := touching.right
      have notIncluded : ¬ (iv.stop ≤ head.2.stop ∧
        iv.start ≥ head.2.start) := outside head List.mem_cons_self
      -- the new address is the start, or the end of the first interval
      have place : ∃ v, iv.Contains v ∧ ¬ head.2.Contains v ∧
          iv.start ≤ v ∧ v ≤ head.2.stop := by
        by_cases early : iv.start < head.2.start
        · refine ⟨iv.start, ⟨BitVec.le_refl _, proper⟩, ?_,
            BitVec.le_refl _, right⟩
          intro inside
          have := inside.1
          bv_omega
        · refine ⟨head.2.stop, ⟨right, by bv_omega⟩, ?_, right,
            BitVec.le_refl _⟩
          intro inside
          have := inside.2
          bv_omega
      obtain ⟨v, isNew, notHead, low, high⟩ := place
      refine ⟨v, isNew, ?_⟩
      rintro ⟨entry, member, inside⟩
      have := inside.1
      have := inside.2
      rcases List.mem_append.mp member with isBefore | isUpper
      · have := splits.before entry isBefore
        bv_omega
      · obtain rfl | later := List.mem_cons.mp isUpper
        · exact notHead inside
        · have := above entry later
          bv_omega

theorem Absorbing.represents {ptr : Nat}
    (absorbing : ivu.Absorbing ptr iv before [] after)
    (proper : iv.start < iv.stop)
    (below : ∀ entry ∈ before, entry.2.stop < iv.start)
    (above : ∀ entry ∈ after, iv.stop < entry.2.start)
    (allocd : ptr < ivu.allocd) :
    ((ivu.addToFM iv.start ptr).addToFM iv.stop ptr).Represents
      (before ++ (ptr, iv) :: after) := by
  obtain ⟨lowerApart, upperApart⟩ := absorbing.apart.of_append
  rw [List.nil_append] at upperApart
  have lower : ∀ item ∈ keysOf before, item.1 < iv.start := by
    intro item member
    obtain ⟨entry, isEntry, -, isKey⟩ := mem_keysOf.mp member
    have first := below entry isEntry
    have second := lowerApart.proper entry isEntry
    rcases isKey with same | same <;> rw [same] <;> bv_omega
  have upper : ∀ item ∈ keysOf after, iv.stop < item.1 := by
    intro item member
    obtain ⟨entry, isEntry, -, isKey⟩ := mem_keysOf.mp member
    have first := above entry isEntry
    have second := upperApart.proper entry isEntry
    rcases isKey with same | same <;> rw [same] <;> bv_omega
  have addStart : OrderedMap.add cmpUnsignedWords iv.start ptr
      (keysOf before ++ keysOf after) =
        keysOf before ++ (iv.start, ptr) :: keysOf after := by
    apply OrderedMap.add_between
    · exact fun item member => cmp_neg_iff.mpr (lower item member)
    · intro item member
      have := upper item member
      rw [cmp_pos_iff]
      bv_omega
  have addStop : OrderedMap.add cmpUnsignedWords iv.stop ptr
      ((keysOf before ++ [(iv.start, ptr)]) ++ keysOf after) =
        (keysOf before ++ [(iv.start, ptr)]) ++
          (iv.stop, ptr) :: keysOf after := by
    apply OrderedMap.add_between
    · intro item member
      rw [cmp_neg_iff]
      rcases List.mem_append.mp member with isLower | isStart
      · have := lower item isLower
        bv_omega
      · rw [List.mem_singleton.mp isStart]
        exact proper
    · exact fun item member => cmp_pos_iff.mpr (upper item member)
  rw [List.append_assoc, List.singleton_append, List.append_assoc,
    List.singleton_append] at addStop
  have members : ∀ entry ∈ before ++ (ptr, iv) :: after,
      entry = (ptr, iv) ∨ entry ∈ before ++ ([] ++ after) := by
    intro entry member
    simp only [List.mem_append, List.mem_cons, List.nil_append] at member ⊢
    tauto
  refine ⟨?_, ?_, ⟨?_, ?_⟩, ?_, ?_⟩
  · rw [keysOf_split]
    simp only [addToFM, absorbing.collect, List.nil_append, keysOf_append,
      addStart, addStop]
  · intro entry member
    obtain rfl | isOld := members entry member
    · exact absorbing.fresh
    · exact absorbing.blocks entry isOld
  · intro entry member
    obtain rfl | isOld := members entry member
    · exact proper
    · exact absorbing.apart.proper entry isOld
  · refine List.pairwise_append.mpr ⟨lowerApart.apart,
      List.pairwise_cons.mpr ⟨above, upperApart.apart⟩, ?_⟩
    intro entry isBefore other isOther
    have first := below entry isBefore
    obtain rfl | isAfter := List.mem_cons.mp isOther
    · exact first
    · have second := above other isAfter
      show entry.2.stop < other.2.start
      bv_omega
  · have moved : ((before ++ (ptr, iv) :: after).map Prod.fst).Perm
        (ptr :: (before ++ after).map Prod.fst) :=
      List.perm_middle.map Prod.fst
    apply moved.nodup_iff.mpr
    refine List.nodup_cons.mpr ⟨fun isOld => ?_, absorbing.distinct⟩
    obtain ⟨entry, member, same⟩ := List.mem_map.mp isOld
    exact Nat.ne_of_lt (absorbing.old entry member) same
  · intro entry member
    obtain rfl | isOld := members entry member
    · exact allocd
    · exact Nat.lt_trans (absorbing.old entry isOld) allocd

theorem Splits.iterAtFM (splits : Splits iv before touched after)
    (collect : ivu.collect = keysOf (before ++ (touched ++ after)))
    (apart : Apart (before ++ (touched ++ after)))
    (proper : iv.start < iv.stop) :
    ivu.iterAtFM iv.start =
      OrderedMap.atOrAfter cmpUnsignedWords iv.start (keysOf touched) ++
        keysOf after := by
  obtain ⟨lowerApart, upperApart⟩ := apart.of_append
  have none := atOrAfter_keysOf_low lowerApart splits.before
  have all : OrderedMap.atOrAfter cmpUnsignedWords iv.start (keysOf after) =
      keysOf after := by
    apply atOrAfter_keysOf_high upperApart.of_append.2
    intro entry member
    have := splits.after entry member
    bv_omega
  rw [Ivu.iterAtFM, collect, keysOf_append, keysOf_append, atOrAfter_append,
    atOrAfter_append, none, all, List.nil_append]

/-- The new interval of a union is freed again. -/
theorem Represents.free_fresh (represents : ivu.Represents stored)
    (iv : Interval w) :
    Returns ((ivu.zalloc iv).1.free ivu.allocd) fun ivu' =>
      ivu'.Represents stored := by
  have fresh := represents.zalloc iv
  have inUse : ((ivu.zalloc iv).1.blocks ivu.allocd).inUse = true := by
    simp [Ivu.zalloc]
  rw [Ivu.free, if_pos inUse]
  refine Returns.ok ⟨fresh.collect, fun entry member => ?_, fresh.apart,
    fresh.distinct, fresh.old⟩
  have older := represents.old entry member
  simp only [Function.update_of_ne (Nat.ne_of_lt older)]
  exact fresh.blocks entry member

theorem interval_zalloc (ivu : Ivu w) (iv : Interval w) :
    (ivu.zalloc iv).1.interval ivu.allocd = iv := by
  simp [Ivu.zalloc, Ivu.interval]

private theorem add_of_scan_included {ivu' : Ivu w} {tmpXa : List Nat}
    (scanned : (ivu.zalloc iv).1.scan ivu.allocd
      ((ivu.zalloc iv).1.iterAtFM iv.start) [] = .ok (ivu', tmpXa, true))
    (sane : ivu'.isSane = true) :
    ivu.ivUnionAddInterval iv.start iv.stop = .ok (ivu', false) := by
  show ((ivu.zalloc iv).1.scan ivu.allocd ((ivu.zalloc iv).1.iterAtFM
    ((ivu.zalloc iv).1.interval ivu.allocd).start) [] >>= _) = _
  rw [interval_zalloc, scanned, ok_bind]
  show (tlAssert (ivu'.isSane = true) >>= _) = _
  rw [tlAssert_of sane]
  rfl

private theorem add_of_scan {ivu' ivu'' : Ivu w} {tmpXa : List Nat}
    (scanned : (ivu.zalloc iv).1.scan ivu.allocd
      ((ivu.zalloc iv).1.iterAtFM iv.start) [] = .ok (ivu', tmpXa, false))
    (absorbed : tmpXa.foldlM (absorb ivu.allocd) ivu' = .ok ivu'')
    {grown : Interval w} (isGrown : ivu''.interval ivu.allocd = grown)
    (sane : ((ivu''.addToFM grown.start ivu.allocd).addToFM grown.stop
      ivu.allocd).isSane = true) :
    ivu.ivUnionAddInterval iv.start iv.stop =
      .ok ((ivu''.addToFM grown.start ivu.allocd).addToFM grown.stop
        ivu.allocd, true) := by
  subst isGrown
  show ((ivu.zalloc iv).1.scan ivu.allocd ((ivu.zalloc iv).1.iterAtFM
    ((ivu.zalloc iv).1.interval ivu.allocd).start) [] >>= _) = _
  rw [interval_zalloc, scanned, ok_bind]
  show (tmpXa.foldlM (absorb ivu.allocd) ivu' >>= _) = _
  rw [absorbed, ok_bind]
  show (tlAssert (((ivu''.addToFM (ivu''.interval ivu.allocd).start
    ivu.allocd).addToFM (ivu''.interval ivu.allocd).stop
      ivu.allocd).isSane = true) >>= _) = _
  rw [tlAssert_of sane]
  rfl

/-- An interval that is part of a stored one changes nothing. -/
theorem Represents.add_included (represents : ivu.Represents stored)
    (proper : iv.start < iv.stop) {head : Nat × Interval w}
    (isSplit : stored = before ++ (head :: touched ++ after))
    (splits : Splits iv before (head :: touched) after)
    (included : Included iv head.2) :
    Returns (ivu.ivUnionAddInterval iv.start iv.stop) fun result =>
      result.1.Represents stored ∧ result.2 = false := by
  have fresh := represents.zalloc iv
  have member : head ∈ stored := by simp [isSplit]
  have walk := splits.iterAtFM (isSplit ▸ fresh.collect)
    (isSplit ▸ fresh.apart) proper
  have reached : iv.start ≤ head.2.stop :=
    (splits.touched head List.mem_cons_self).right
  have visited : ∃ key more, (ivu.zalloc iv).1.iterAtFM iv.start =
      (key, head.1) :: more := by
    rw [walk, keysOf_cons, atOrAfter_append, atOrAfter_keys reached]
    split_ifs
    · exact ⟨_, _, rfl⟩
    · exact ⟨_, _, rfl⟩
  obtain ⟨key, more, isVisited⟩ := visited
  have covered : Included ((ivu.zalloc iv).1.interval ivu.allocd)
      ((ivu.zalloc iv).1.interval head.1) := by
    rw [interval_zalloc, fresh.interval member]
    exact included
  obtain ⟨ivu', free, kept⟩ := represents.free_fresh iv
  have scanned : (ivu.zalloc iv).1.scan ivu.allocd
      ((ivu.zalloc iv).1.iterAtFM iv.start) [] = .ok (ivu', [], true) := by
    rw [isVisited]
    exact scan_included covered free []
  exact ⟨_, add_of_scan_included scanned kept.isSane, kept, rfl⟩

theorem Harmless.safe (harmless : ivu.Harmless iv.start iv.stop)
    (represents : ivu.Represents stored)
    (isSplit : stored = before ++ (touched ++ after))
    (splits : Splits iv before touched after)
    (outside : ∀ entry ∈ touched, ¬ Included iv entry.2) :
    Safe iv.start before touched after := by
  intro entry member early other isOther beyond
  have stays : entry ∈ stored := by
    rw [isSplit]
    exact List.mem_append_right _ (List.mem_append_left _ member)
  rw [← isSplit] at isOther
  have isKey : ∀ key, key = other.2.start ∨ key = other.2.stop →
      (key, other.1) ∈ ivu.collect := by
    intro key which
    rw [represents.collect]
    exact mem_keysOf.mpr ⟨other, isOther, rfl, which⟩
  have swallowed : (entry.2.start, entry.1) ∈ ivu.collect := by
    rw [represents.collect]
    exact mem_keysOf.mpr ⟨entry, stays, rfl, .inl rfl⟩
  have clean : ∀ key, key = other.2.start ∨ key = other.2.stop →
      key ≠ junk w := by
    intro key which
    have apply := harmless _ swallowed _ (isKey key which)
    simp only [represents.interval stays, represents.interval isOther] at apply
    exact apply early (splits.touched entry member).left
      (outside entry member) beyond
  exact ⟨clean _ (.inl rfl), clean _ (.inr rfl)⟩

/-- An interval that is part of no stored one swallows those it touches. -/
theorem Represents.add_outside (represents : ivu.Represents stored)
    (proper : iv.start < iv.stop)
    (harmless : ivu.Harmless iv.start iv.stop)
    (isSplit : stored = before ++ (touched ++ after))
    (splits : Splits iv before touched after)
    (outside : ∀ entry ∈ touched, ¬ Included iv entry.2) :
    Returns (ivu.ivUnionAddInterval iv.start iv.stop) fun result =>
      result.1.Represents
        (before ++ (ivu.allocd, hull iv touched) :: after) ∧
      result.2 = true := by
  have safe := harmless.safe represents isSplit splits outside
  subst isSplit
  have fresh := represents.zalloc iv
  have walk := splits.iterAtFM fresh.collect fresh.apart proper
  have touchedItem : ∀ item ∈ OrderedMap.atOrAfter cmpUnsignedWords iv.start
      (keysOf touched), ∃ entry ∈ touched,
        (ivu.zalloc iv).1.interval item.2 = entry.2 := by
    intro item member
    obtain ⟨entry, isEntry, same, -⟩ :=
      mem_keysOf.mp (List.mem_of_mem_filter member)
    refine ⟨entry, isEntry, ?_⟩
    rw [same]
    exact fresh.interval
      (List.mem_append_right _ (List.mem_append_left _ isEntry))
  have afterItem : ∀ item ∈ keysOf after,
      iv.stop < ((ivu.zalloc iv).1.interval item.2).start ∧
        ((ivu.zalloc iv).1.interval item.2).start <
          ((ivu.zalloc iv).1.interval item.2).stop := by
    intro item member
    obtain ⟨entry, isEntry, same, -⟩ := mem_keysOf.mp member
    have stays : entry ∈ before ++ (touched ++ after) :=
      List.mem_append_right _ (List.mem_append_right _ isEntry)
    rw [same, fresh.interval stays]
    exact ⟨splits.after entry isEntry, fresh.apart.proper entry stays⟩
  have scanned : (ivu.zalloc iv).1.scan ivu.allocd
      ((ivu.zalloc iv).1.iterAtFM iv.start) [] =
        .ok ((ivu.zalloc iv).1, (OrderedMap.atOrAfter cmpUnsignedWords
          iv.start (keysOf touched)).map Prod.snd, false) := by
    rw [walk, scan_touched (interval_zalloc ivu iv)]
    · exact scan_after (interval_zalloc ivu iv) proper afterItem _
    · intro item member
      obtain ⟨entry, isEntry, same⟩ := touchedItem item member
      rw [same]
      exact splits.touched entry isEntry
    · intro item member
      obtain ⟨entry, isEntry, same⟩ := touchedItem item member
      rw [same]
      exact outside entry isEntry
  have absorbing : (ivu.zalloc iv).1.Absorbing ivu.allocd iv before touched
      after := by
    refine ⟨fresh.collect, fresh.blocks, ?_, fresh.apart, fresh.distinct,
      represents.old⟩
    simp [Ivu.zalloc]
  obtain ⟨ivu', absorbed, done, allocd⟩ := absorbing.absorb_touched
    splits.before (fun entry member => (splits.touched entry member).right)
    safe
  obtain ⟨-, upperApart⟩ := fresh.apart.of_append
  have properTouched : ∀ entry ∈ touched, entry.2.start < entry.2.stop :=
    upperApart.of_append.1.proper
  have result := done.represents (hull_proper proper properTouched)
    (fun entry member => lt_hull_start (splits.before entry member)
      fun other isOther => (List.pairwise_append.mp fresh.apart.apart).2.2
        entry member other (List.mem_append_left _ isOther))
    (fun entry member => hull_stop_lt (splits.after entry member)
      fun other isOther => (List.pairwise_append.mp upperApart.apart).2.2
        other isOther entry member)
    (by rw [allocd]; exact Nat.lt_succ_self _)
  have isGrown : ivu'.interval ivu.allocd = hull iv touched := by
    rw [Ivu.interval, done.fresh]
  exact ⟨_, add_of_scan scanned absorbed isGrown result.isSane, result, rfl⟩

theorem within_append {left right : Stored w} {v : BitVec w} :
    Within (left ++ right) v ↔ Within left v ∨ Within right v := by
  simp only [Within, List.mem_append, or_and_right, exists_or]

theorem within_cons {entry : Nat × Interval w} {right : Stored w}
    {v : BitVec w} :
    Within (entry :: right) v ↔ entry.2.Contains v ∨ Within right v := by
  simp only [Within, List.exists_mem_cons_iff]

/-- The end points of the intervals are among those of others. -/
def EndsFrom (ends stored : Stored w) : Prop :=
  ∀ entry ∈ stored,
    (∃ old ∈ ends, entry.2.start = old.2.start) ∧
    ∃ old ∈ ends, entry.2.stop = old.2.stop

theorem EndsFrom.of_subset {ends : Stored w} (subset : stored ⊆ ends) :
    EndsFrom ends stored :=
  fun _ member =>
    ⟨⟨_, subset member, rfl⟩, ⟨_, subset member, rfl⟩⟩

/-- The interval that has swallowed others has its end points from them. -/
theorem hull_ends (ptr : Nat) :
    (∃ old ∈ (ptr, iv) :: touched,
      (hull iv touched).start = old.2.start) ∧
    ∃ old ∈ (ptr, iv) :: touched, (hull iv touched).stop = old.2.stop := by
  induction touched generalizing iv with
  | nil => exact ⟨⟨_, List.mem_cons_self, rfl⟩, ⟨_, List.mem_cons_self, rfl⟩⟩
  | cons first rest induction =>
      have start : (iv.join first.2).start = iv.start ∨
          (iv.join first.2).start = first.2.start := by
        unfold Interval.join
        split_ifs <;> simp
      have stop : (iv.join first.2).stop = iv.stop ∨
          (iv.join first.2).stop = first.2.stop := by
        unfold Interval.join
        split_ifs <;> simp
      obtain ⟨⟨low, isLow, starts⟩, ⟨high, isHigh, stops⟩⟩ :=
        @induction (iv.join first.2)
      constructor
      · rcases List.mem_cons.mp isLow with rfl | later
        · rcases start with same | same
          · exact ⟨_, List.mem_cons_self, starts.trans same⟩
          · exact ⟨first, by simp, starts.trans same⟩
        · exact ⟨low, by simp [later], starts⟩
      · rcases List.mem_cons.mp isHigh with rfl | later
        · rcases stop with same | same
          · exact ⟨_, List.mem_cons_self, stops.trans same⟩
          · exact ⟨first, by simp, stops.trans same⟩
        · exact ⟨high, by simp [later], stops⟩

/-- One call adds the addresses of its interval, says whether one of them is
new, and makes no new end points. -/
theorem Represents.ivUnionAddInterval_ends (represents : ivu.Represents stored)
    (proper : iv.start < iv.stop)
    (harmless : ivu.Harmless iv.start iv.stop) :
    Returns (ivu.ivUnionAddInterval iv.start iv.stop) fun result =>
      ∃ stored', result.1.Represents stored' ∧
        (∀ v, Within stored' v ↔ Within stored v ∨ iv.Contains v) ∧
        (result.2 = true ↔ ∃ v, iv.Contains v ∧ ¬ Within stored v) ∧
        EndsFrom ((ivu.allocd, iv) :: stored) stored' := by
  obtain ⟨before, touched, after, isSplit, splits⟩ :=
    represents.apart.exists_splits iv
  have apart := isSplit ▸ represents.apart
  by_cases covered : ∃ entry ∈ touched, Included iv entry.2
  · obtain ⟨entry, member, included⟩ := covered
    cases touched with
    | nil => exact absurd member List.not_mem_nil
    | cons head rest =>
        have first : Included iv head.2 := by
          by_contra outside
          exact splits.not_included apart.of_append.2 outside entry member
            included
        apply (represents.add_included proper isSplit splits first).mono
        intro result done
        obtain ⟨kept, unchanged⟩ := done
        have inside : ∀ v, iv.Contains v → Within stored v := by
          intro v contains
          refine ⟨head, by simp [isSplit], ?_, ?_⟩
          · exact BitVec.le_trans first.2 contains.1
          · exact (show v < head.2.stop by
              have := contains.2
              have := first.1
              bv_omega)
        refine ⟨stored, kept, fun v => ⟨.inl, ?_⟩, ?_,
          EndsFrom.of_subset (List.subset_cons_self _ _)⟩
        · rintro (old | contains)
          · exact old
          · exact inside v contains
        · rw [unchanged]
          refine ⟨fun absurd => (nomatch absurd), ?_⟩
          rintro ⟨v, contains, isNew⟩
          exact absurd (inside v contains) isNew
  · have outside : ∀ entry ∈ touched, ¬ Included iv entry.2 :=
      fun entry member included => covered ⟨entry, member, included⟩
    apply (represents.add_outside proper harmless isSplit splits
      outside).mono
    intro result done
    obtain ⟨kept, changed⟩ := done
    refine ⟨_, kept, fun v => ?_, ?_, ?_⟩
    · rw [isSplit, within_append, within_cons, within_append, within_append,
        hull_contains splits.touched v]
      simp only [or_assoc, or_comm, or_left_comm]
    · rw [changed, isSplit]
      exact iff_of_true rfl (splits.exists_new apart proper outside)
    · intro entry member
      have known : ∀ old, old ∈ (ivu.allocd, iv) :: touched →
          old ∈ (ivu.allocd, iv) :: stored := by
        simp only [isSplit, List.mem_cons, List.mem_append]
        tauto
      have kinds : entry ∈ stored ∨ entry = (ivu.allocd, hull iv touched) := by
        simp only [isSplit, List.mem_append, List.mem_cons] at member ⊢
        tauto
      rcases kinds with isOld | rfl
      · exact EndsFrom.of_subset (List.subset_cons_self _ _) entry isOld
      · obtain ⟨⟨low, isLow, starts⟩, ⟨high, isHigh, stops⟩⟩ :=
          @hull_ends _ iv touched ivu.allocd
        exact ⟨⟨low, known low isLow, starts⟩, ⟨high, known high isHigh, stops⟩⟩

/-- One call adds the addresses of its interval, and says whether one of them
is new. -/
theorem Represents.ivUnionAddInterval (represents : ivu.Represents stored)
    (proper : iv.start < iv.stop)
    (harmless : ivu.Harmless iv.start iv.stop) :
    Returns (ivu.ivUnionAddInterval iv.start iv.stop) fun result =>
      ∃ stored', result.1.Represents stored' ∧
        (∀ v, Within stored' v ↔ Within stored v ∨ iv.Contains v) ∧
        (result.2 = true ↔ ∃ v, iv.Contains v ∧ ¬ Within stored v) := by
  apply (represents.ivUnionAddInterval_ends proper harmless).mono
  rintro result ⟨stored', kept, within, isNew, -⟩
  exact ⟨stored', kept, within, isNew⟩

theorem Represents.ivUnionContains (represents : ivu.Represents stored)
    (v : BitVec w) :
    ivu.ivUnionContains v =
      .ok ((stored.find? fun entry => entry.2.Contains v).map Prod.fst) := by
  have walk := containsFrom_keysOf represents.blocks represents.apart v
  rw [Ivu.ivUnionContains, Ivu.iterAtFM, represents.collect, walk,
    tlAssert_of represents.isSane]
  rfl

end Call

theorem represents_new : (new : Ivu w).Represents [] :=
  ⟨rfl, by simp, ⟨by simp, List.Pairwise.nil⟩, List.nodup_nil, by simp⟩

/-- One of the calls has added the address. -/
def Added (calls : List (BitVec w × BitVec w)) (v : BitVec w) : Prop :=
  ∃ call ∈ calls, call.1 ≤ v ∧ v < call.2

/-- Every call is harmless in the state in which it is made. -/
def AllHarmless (calls : List (BitVec w × BitVec w)) : Prop :=
  ∀ n call ivu, calls[n]? = some call → addAll (calls.take n) = .ok ivu →
    ivu.Harmless call.1 call.2

/-- The union that the first calls have built. -/
theorem addAll_represents {calls : List (BitVec w × BitVec w)}
    (proper : ∀ call ∈ calls, call.1 < call.2)
    (harmless : AllHarmless calls) (n : Nat) :
    Returns (addAll (calls.take n)) fun ivu =>
      ∃ stored, ivu.Represents stored ∧
        ∀ v, Within stored v ↔ Added (calls.take n) v := by
  refine take_induction ?_ (fun n call atN induction => ?_) n
  · exact Returns.pure ⟨[], represents_new, by simp [Within, Added]⟩
  · obtain ⟨ivu, done, stored, represents, within⟩ := induction
    have isProper : call.1 < call.2 :=
      proper call (List.mem_of_getElem? atN)
    obtain ⟨⟨ivu', flag⟩, added, stored', kept, grown, -⟩ :=
      @Represents.ivUnionAddInterval _ _ _ ⟨call.1, call.2⟩ represents
        isProper (harmless n call ivu atN done)
    unfold addAll at done ⊢
    rw [foldlM_take_succ atN, done, ok_bind, added]
    refine Returns.pure ⟨stored', kept, fun v => ?_⟩
    rw [grown, within, List.take_add_one, atN]
    simp [Added, Interval.Contains, or_and_right, exists_or]

/-- A union is the set of the addresses that were added to it, as long as no
freed block is taken for an end point: the stored intervals do not even touch,
each is kept under its start and its end, a look-up finds the stored interval
around an address, each call says whether it adds an address, and no assertion
fails. -/
theorem iv_union_is_the_set_added (calls : List (BitVec w × BitVec w))
    (proper : ∀ call ∈ calls, call.1 < call.2)
    (harmless : AllHarmless calls) :
    ∃ ivu stored, addAll calls = .ok ivu ∧ ivu.Represents stored ∧
      ivu.isSane = true ∧
      (∀ v, ∃ res, ivu.ivUnionContains v = .ok res ∧
        (res.isSome = true ↔ Added calls v) ∧
        ∀ ptr, res = some ptr → (ptr, ivu.interval ptr) ∈ stored ∧
          (ivu.interval ptr).Contains v) ∧
      ∀ n call, calls[n]? = some call → ∃ before after changed,
        addAll (calls.take n) = .ok before ∧
        before.ivUnionAddInterval call.1 call.2 = .ok (after, changed) ∧
        (changed = true ↔ ∃ v, (call.1 ≤ v ∧ v < call.2) ∧
          ¬ Added (calls.take n) v) := by
  obtain ⟨ivu, done, stored, represents, within⟩ :=
    addAll_represents proper harmless calls.length
  rw [List.take_length] at done within
  refine ⟨ivu, stored, done, represents, represents.isSane, fun v => ?_, ?_⟩
  · refine ⟨_, represents.ivUnionContains v, ?_, ?_⟩
    · rw [Option.isSome_map, List.find?_isSome, ← within]
      simp [Within]
    · intro ptr found
      obtain ⟨entry, isFound, rfl⟩ := Option.map_eq_some_iff.mp found
      have member := List.mem_of_find?_eq_some isFound
      have inside := List.find?_some isFound
      rw [represents.interval member]
      exact ⟨member, by simpa using inside⟩
  · intro n call atPlace
    obtain ⟨before, built, old, keeps, oldWithin⟩ :=
      addAll_represents proper harmless n
    obtain ⟨⟨after, changed⟩, added, -, -, -, isNew⟩ :=
      @Represents.ivUnionAddInterval _ _ _ ⟨call.1, call.2⟩ keeps
        (proper call (List.mem_of_getElem? atPlace))
        (harmless n call before atPlace built)
    simp only [oldWithin] at isNew
    exact ⟨before, after, changed, built, added, isNew⟩

theorem iv_union_is_the_set_added_bridge :
    ∃ ivu stored, addAll [(10#32, 20#32), (30#32, 40#32), (20#32, 30#32)] =
        .ok ivu ∧ ivu.Represents stored ∧ ivu.isSane = true := by
  have harmless : AllHarmless
      [(10#32, 20#32), (30#32, 40#32), (20#32, 30#32)] := by
    intro n call ivu atN done
    match n with
    | 0 =>
        cases atN
        cases done
        unfold Harmless
        decide +kernel
    | 1 =>
        cases atN
        cases done
        unfold Harmless
        decide +kernel
    | 2 =>
        cases atN
        cases done
        unfold Harmless
        decide +kernel
    | n + 3 => exact (nomatch atN)
  obtain ⟨ivu, stored, done, represents, sane, -⟩ :=
    iv_union_is_the_set_added _ (by simp) harmless
  exact ⟨ivu, stored, done, represents, sane⟩

/-- The block of the first interval is read again after it has been freed, and
is taken for the start of the second. -/
theorem iv_union_reads_freed_interval :
    addAll [(10#32, 20#32), (0xDDDDDDDD#32, 0xDDDDDDDE#32), (5#32, 30#32)] =
      .error .dangling := by
  rfl

end Ivu
end HelgrindPlus
