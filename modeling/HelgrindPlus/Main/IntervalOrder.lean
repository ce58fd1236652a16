import HelgrindPlus.Lib.FirstDifference
import HelgrindPlus.Main.IntervalRuns
import Mathlib.Algebra.Group.Int.Defs

/-!
# The order of interval unions

`HG_(ivUnionCompare)` reads a union as a list of words: the number of its keys
and the keys.  At the first place where two lists differ, the difference of
the two words is cut to the 32 bits of an `Int`.
-/

namespace HelgrindPlus

open Outcome WordFM

namespace Ivu

variable {w : Nat}

/-- A word that is stored in an `Int`. -/
def asInt (word : BitVec w) : Int := (word.setWidth 32).toInt

def sizeFM (ivu : Ivu w) : BitVec w := BitVec.ofNat w ivu.collect.length

/-- The loop of `HG_(ivUnionCompare)`, over what the two iterators yield. -/
def compareFrom (ivu1 ivu2 : Ivu w) :
    List (BitVec w × Nat) → List (BitVec w × Nat) → Except Abort Int
  | [], _ => .ok 0
  | _ :: _, [] => .error .tlAssert
  | (key1, ptr1) :: rest1, (key2, ptr2) :: rest2 =>
      let ivc1 := ivu1.interval ptr1
      let ivc2 := ivu2.interval ptr2
      if key1 = ivc1.start then do
        tlAssert (key2 = ivc2.start)
        if key1 ≠ key2 then pure (asInt (key1 - key2))
        else if ivc1.stop ≠ ivc2.stop then pure (asInt (ivc1.stop - ivc2.stop))
        else compareFrom ivu1 ivu2 rest1 rest2
      else compareFrom ivu1 ivu2 rest1 rest2

/-- A pointer to an `IntervalUnion` is the number of the union. -/
def ivUnionCompare (unions : Nat → Ivu w) (ivu1 ivu2 : Nat) :
    Except Abort Int :=
  if ivu1 = ivu2 then .ok 0
  else
    let tmp := asInt ((unions ivu1).sizeFM - (unions ivu2).sizeFM)
    if tmp ≠ 0 then .ok tmp
    else compareFrom (unions ivu1) (unions ivu2) (unions ivu1).collect
      (unions ivu2).collect

/-- The number of keys, as far as it is seen, and the keys. -/
def words (ivu : Ivu w) : List Nat :=
  ivu.collect.length % 2 ^ 32 :: ivu.collect.map fun item => item.1.toNat

/-- The difference of two words as an `Int`. -/
def distance (x y : Nat) : Int := Int.bmod (x - y) (2 ^ 32)

theorem asInt_sub (host : w = 32 ∨ w = 64) (x y : BitVec w) :
    asInt (x - y) = distance x.toNat y.toNat := by
  unfold asInt distance
  rw [BitVec.toInt_eq_toNat_bmod, BitVec.toNat_setWidth, BitVec.toNat_sub]
  have := x.isLt
  have := y.isLt
  rcases host with rfl | rfl
  · simp only [Int.bmod_def]
    omega
  · simp only [Int.bmod_def]
    omega

private theorem distance_mod (x y : Nat) :
    distance (x % 2 ^ 32) (y % 2 ^ 32) = distance x y := by
  simp only [distance, Int.bmod_def]
  omega

theorem distance_eq_zero_iff {x y : Nat} :
    distance x y = 0 ↔ x % 2 ^ 32 = y % 2 ^ 32 := by
  simp only [distance, Int.bmod_def]
  omega

theorem distance_neg_iff {x y : Nat} :
    distance x y < 0 ↔ 0 < (y - x : Int) % 2 ^ 32 ∧
      (y - x : Int) % 2 ^ 32 ≤ 2 ^ 31 := by
  simp only [distance, Int.bmod_def]
  omega

theorem distance_pos_iff {x y : Nat} :
    0 < distance x y ↔ 0 < (x - y : Int) % 2 ^ 32 ∧
      (x - y : Int) % 2 ^ 32 < 2 ^ 31 := by
  simp only [distance, Int.bmod_def]
  omega

/-- Where the second list of words runs out, the assertion fails that the
second iterator yields another key. -/
def ofDifference (difference : Option Int) : Except Abort Int :=
  difference.elim (.error .tlAssert) .ok

/-- The keys of some intervals. -/
def keyWords (stored : Stored w) : List Nat :=
  (keysOf stored).map fun item => item.1.toNat

@[simp] theorem keyWords_cons (entry : Nat × Interval w) (rest : Stored w) :
    keyWords (entry :: rest) =
      entry.2.start.toNat :: entry.2.stop.toNat :: keyWords rest := rfl

private theorem compareFrom_keysOf (host : w = 32 ∨ w = 64) {ivu1 ivu2 : Ivu w}
    {stored1 stored2 : Stored w}
    (blocks1 : ∀ entry ∈ stored1, ivu1.interval entry.1 = entry.2)
    (proper1 : ∀ entry ∈ stored1, entry.2.start < entry.2.stop)
    (blocks2 : ∀ entry ∈ stored2, ivu2.interval entry.1 = entry.2) :
    compareFrom ivu1 ivu2 (keysOf stored1) (keysOf stored2) =
      ofDifference (FirstDifference.compare distance 0 (keyWords stored1)
        (keyWords stored2)) := by
  induction stored1 generalizing stored2 with
  | nil => rfl
  | cons first rest1 induction =>
      cases stored2 with
      | nil => rfl
      | cons second rest2 =>
          have here1 := blocks1 first List.mem_cons_self
          have here2 := blocks2 second List.mem_cons_self
          have proper := proper1 first List.mem_cons_self
          have isStop : ¬ first.2.stop = first.2.start := by bv_omega
          have tail := @induction rest2
            (fun later member => blocks1 later (List.mem_cons_of_mem _ member))
            (fun later member => proper1 later (List.mem_cons_of_mem _ member))
            (fun later member => blocks2 later (List.mem_cons_of_mem _ member))
          simp only [keysOf_cons, keys, List.cons_append, List.nil_append,
            compareFrom, here1, here2, if_true, tlAssert_of, ok_bind,
            if_neg isStop, keyWords_cons, FirstDifference.compare,
            BitVec.toNat_inj]
          by_cases sameStart : first.2.start = second.2.start
          · by_cases sameStop : first.2.stop = second.2.stop
            · simp only [ne_eq, sameStart, sameStop, not_true_eq_false,
                if_false, if_true]
              exact tail
            · simp only [ne_eq, sameStart, sameStop, not_true_eq_false,
                not_false_eq_true, if_false, if_true, asInt_sub host]
              rfl
          · simp only [ne_eq, sameStart, not_false_eq_true, if_false, if_true,
              asInt_sub host]
            rfl

/-- The two unions are compared by their words. -/
theorem ivUnionCompare_words (host : w = 32 ∨ w = 64) {unions : Nat → Ivu w}
    {a b : Nat} {stored1 stored2 : Stored w}
    (represents1 : (unions a).Represents stored1)
    (represents2 : (unions b).Represents stored2) :
    ivUnionCompare unions a b = ofDifference (FirstDifference.compare
      distance 0 (unions a).words (unions b).words) := by
  by_cases samePointer : a = b
  · subst samePointer
    rw [ivUnionCompare, if_pos rfl, FirstDifference.compare_self]
    rfl
  · have loop := compareFrom_keysOf host
      (fun entry member => represents1.interval member)
      represents1.apart.proper
      (fun entry member => represents2.interval member)
    have sizes : asInt ((unions a).sizeFM - (unions b).sizeFM) =
        distance ((unions a).collect.length % 2 ^ 32)
          ((unions b).collect.length % 2 ^ 32) := by
      have folded : ∀ n : Nat, n % 2 ^ w % 2 ^ 32 = n % 2 ^ 32 := by
        intro n
        rcases host with rfl | rfl <;> omega
      rw [asInt_sub host, sizeFM, sizeFM, BitVec.toNat_ofNat,
        BitVec.toNat_ofNat, ← distance_mod, folded, folded]
    rw [ivUnionCompare, if_neg samePointer, sizes, words, words,
      FirstDifference.compare]
    by_cases sameSize : (unions a).collect.length % 2 ^ 32 =
        (unions b).collect.length % 2 ^ 32
    · have zero : distance ((unions a).collect.length % 2 ^ 32)
          ((unions b).collect.length % 2 ^ 32) = 0 :=
        distance_eq_zero_iff.mpr (by rw [sameSize])
      rw [zero, if_pos sameSize]
      simp only [ne_eq, not_true_eq_false, if_false, represents1.collect,
        represents2.collect]
      exact loop
    · have nonzero : distance ((unions a).collect.length % 2 ^ 32)
          ((unions b).collect.length % 2 ^ 32) ≠ 0 := by
        intro zero
        have := distance_eq_zero_iff.mp zero
        omega
      rw [if_neg sameSize]
      simp only [ne_eq, nonzero, not_false_eq_true, if_true]
      rfl

/-- A look-up finds the address. -/
def Holds (ivu : Ivu w) (v : BitVec w) : Prop :=
  ∃ ptr, ivu.ivUnionContains v = .ok (some ptr)

def SameAddresses (ivu1 ivu2 : Ivu w) : Prop :=
  ∀ v, ivu1.Holds v ↔ ivu2.Holds v

theorem Represents.holds_iff {ivu : Ivu w} {stored : Stored w}
    (represents : ivu.Represents stored) (v : BitVec w) :
    ivu.Holds v ↔ Within stored v := by
  simp only [Holds, represents.ivUnionContains v, Except.ok.injEq,
    Option.map_eq_some_iff]
  constructor
  · intro found
    obtain ⟨ptr, entry, isFound, -⟩ := found
    have inside := List.find?_some isFound
    exact ⟨entry, List.mem_of_find?_eq_some isFound, by simpa using inside⟩
  · intro within
    obtain ⟨entry, member, inside⟩ := within
    have isFound : (stored.find? fun entry => entry.2.Contains v).isSome :=
      List.find?_isSome.mpr ⟨entry, member, by simpa using inside⟩
    obtain ⟨found, isFound⟩ := Option.isSome_iff_exists.mp isFound
    exact ⟨found.1, found, isFound, rfl⟩

section Canonical

variable {entry other : Nat × Interval w} {rest rest' : Stored w}

theorem Apart.within_head (apart : Apart (entry :: rest)) (v : BitVec w) :
    Within rest v ↔ Within (entry :: rest) v ∧ entry.2.stop < v := by
  obtain ⟨proper, below, -⟩ := apart.of_cons
  rw [within_cons]
  constructor
  · intro within
    obtain ⟨later, member, inside⟩ := within
    have := below later member
    have := inside.1
    exact ⟨.inr ⟨later, member, inside⟩, by bv_omega⟩
  · intro within
    obtain ⟨here | later, above⟩ := within
    · have := here.2
      bv_omega
    · exact later

/-- The first interval of two unions with the same addresses. -/
theorem Apart.head_le (apart : Apart (entry :: rest))
    (apart' : Apart (other :: rest'))
    (same : ∀ v, Within (entry :: rest) v ↔ Within (other :: rest') v) :
    other.2.start ≤ entry.2.start := by
  obtain ⟨proper, -, -⟩ := apart.of_cons
  obtain ⟨-, below, -⟩ := apart'.of_cons
  have here : Within (entry :: rest) entry.2.start :=
    ⟨entry, List.mem_cons_self, BitVec.le_refl _, proper⟩
  obtain ⟨found, member, inside⟩ := (same _).mp here
  have := inside.1
  obtain rfl | later := List.mem_cons.mp member
  · exact this
  · have := below found later
    have := apart'.proper other List.mem_cons_self
    bv_omega

theorem Apart.head_stop_le (apart : Apart (entry :: rest))
    (apart' : Apart (other :: rest'))
    (same : ∀ v, Within (entry :: rest) v ↔ Within (other :: rest') v)
    (sameStart : entry.2.start = other.2.start) :
    entry.2.stop ≤ other.2.stop := by
  obtain ⟨proper, -, -⟩ := apart.of_cons
  obtain ⟨proper', below, -⟩ := apart'.of_cons
  by_contra longer
  -- the end of the shorter interval is an address of the longer one only
  have here : Within (entry :: rest) other.2.stop :=
    ⟨entry, List.mem_cons_self, by bv_omega, by bv_omega⟩
  obtain ⟨found, member, inside⟩ := (same _).mp here
  have := inside.1
  have := inside.2
  obtain rfl | later := List.mem_cons.mp member
  · bv_omega
  · have := below found later
    bv_omega

/-- Intervals that lie apart are determined by their addresses. -/
theorem Apart.unique {stored stored' : Stored w} (apart : Apart stored)
    (apart' : Apart stored')
    (same : ∀ v, Within stored v ↔ Within stored' v) :
    stored.map Prod.snd = stored'.map Prod.snd := by
  induction stored generalizing stored' with
  | nil =>
      cases stored' with
      | nil => rfl
      | cons other rest' =>
          have inside : Within (other :: rest') other.2.start :=
            ⟨other, List.mem_cons_self, BitVec.le_refl _,
              apart'.proper other List.mem_cons_self⟩
          obtain ⟨entry, member, -⟩ := (same _).mpr inside
          exact absurd member List.not_mem_nil
  | cons entry rest induction =>
      cases stored' with
      | nil =>
          have inside : Within (entry :: rest) entry.2.start :=
            ⟨entry, List.mem_cons_self, BitVec.le_refl _,
              apart.proper entry List.mem_cons_self⟩
          obtain ⟨other, member, -⟩ := (same _).mp inside
          exact absurd member List.not_mem_nil
      | cons other rest' =>
          have back := fun v => (same v).symm
          have sameStart : entry.2.start = other.2.start :=
            BitVec.le_antisymm (apart'.head_le apart back)
              (apart.head_le apart' same)
          have sameStop : entry.2.stop = other.2.stop :=
            BitVec.le_antisymm (apart.head_stop_le apart' same sameStart)
              (apart'.head_stop_le apart back sameStart.symm)
          have tail : ∀ v, Within rest v ↔ Within rest' v := by
            intro v
            rw [apart.within_head, apart'.within_head, same, sameStop]
          have sameHead : entry.2 = other.2 :=
            congrArg₂ Interval.mk sameStart sameStop
          rw [List.map_cons, List.map_cons, sameHead,
            induction apart.of_cons.2.2 apart'.of_cons.2.2 tail]

end Canonical

private theorem keyWords_eq (stored : Stored w) :
    keyWords stored = (stored.map Prod.snd).flatMap fun iv =>
      [iv.start.toNat, iv.stop.toNat] := by
  induction stored with
  | nil => rfl
  | cons entry rest induction =>
      rw [keyWords_cons, induction]
      rfl

private theorem keyWords_inj {stored stored' : Stored w}
    (same : keyWords stored = keyWords stored') :
    stored.map Prod.snd = stored'.map Prod.snd := by
  induction stored generalizing stored' with
  | nil =>
      cases stored' with
      | nil => rfl
      | cons other rest' => exact (nomatch same)
  | cons entry rest induction =>
      cases stored' with
      | nil => exact (nomatch same)
      | cons other rest' =>
          rw [keyWords_cons, keyWords_cons] at same
          obtain ⟨sameStart, more⟩ := List.cons.inj same
          obtain ⟨sameStop, tail⟩ := List.cons.inj more
          have sameHead : entry.2 = other.2 :=
            congrArg₂ Interval.mk (BitVec.eq_of_toNat_eq sameStart)
              (BitVec.eq_of_toNat_eq sameStop)
          rw [List.map_cons, List.map_cons, sameHead, induction tail]

private theorem within_iff_map {stored : Stored w} {v : BitVec w} :
    Within stored v ↔ ∃ iv ∈ stored.map Prod.snd, iv.Contains v := by
  simp only [Within, List.mem_map, exists_exists_and_eq_and]

theorem Represents.words_eq {ivu : Ivu w} {stored : Stored w}
    (represents : ivu.Represents stored) :
    ivu.words = (keyWords stored).length % 2 ^ 32 :: keyWords stored := by
  rw [words, represents.collect, keyWords, List.length_map]

theorem Represents.sameAddresses_iff {ivu1 ivu2 : Ivu w}
    {stored1 stored2 : Stored w} (represents1 : ivu1.Represents stored1)
    (represents2 : ivu2.Represents stored2) :
    SameAddresses ivu1 ivu2 ↔ ivu1.words = ivu2.words := by
  simp only [SameAddresses, represents1.holds_iff, represents2.holds_iff,
    represents1.words_eq, represents2.words_eq]
  constructor
  · intro same
    have unique := represents1.apart.unique represents2.apart same
    rw [keyWords_eq, keyWords_eq, unique]
  · intro same v
    have unique := keyWords_inj (List.cons.inj same).2
    rw [within_iff_map, within_iff_map, unique]

/-- What is claimed of three unions: the first two compare as equal just if
they contain the same addresses, the other way round the sign is opposite, and
the order is transitive. -/
def OrdersUnions (unions : Nat → Ivu w) (a b c : Nat) : Prop :=
  ∃ ab ba, ivUnionCompare unions a b = .ok ab ∧
    ivUnionCompare unions b a = .ok ba ∧
    (ab = 0 ↔ SameAddresses (unions a) (unions b)) ∧
    (ab < 0 ↔ 0 < ba) ∧ (0 < ab ↔ ba < 0) ∧
    ∀ bc, ivUnionCompare unions b c = .ok bc → ab < 0 → bc < 0 →
      ∃ ac, ivUnionCompare unions a c = .ok ac ∧ ac < 0

/-- Neither list is the beginning of the other, and where they first differ
the two words do not lie a multiple of `2 ^ 31` apart. -/
structure Separated (xs ys : List Nat) : Prop where
  complete : xs <+: ys ∨ ys <+: xs → xs = ys
  distant : ∀ x y, FirstDifference.At xs ys x y →
    x % 2 ^ 31 ≠ y % 2 ^ 31

/-- Where three lists differ for the first time in one place, steps of at most
`2 ^ 31` from the first word to the second and on to the third, modulo
`2 ^ 32`, make up a step of at most `2 ^ 31`. -/
def Near (xs ys zs : List Nat) : Prop :=
  ∀ x y z, FirstDifference.Place xs ys zs x y z →
    0 < (y - x : Int) % 2 ^ 32 → (y - x : Int) % 2 ^ 32 ≤ 2 ^ 31 →
    0 < (z - y : Int) % 2 ^ 32 → (z - y : Int) % 2 ^ 32 ≤ 2 ^ 31 →
    (y - x : Int) % 2 ^ 32 + (z - y : Int) % 2 ^ 32 ≤ 2 ^ 31

section Orders

variable (host : w = 32 ∨ w = 64) {unions : Nat → Ivu w}
  (built : ∀ ivu, ∃ stored, (unions ivu).Represents stored) {a b c : Nat}

include host built

theorem compare_eq (a b : Nat) :
    ivUnionCompare unions a b = ofDifference (FirstDifference.compare
      distance 0 (unions a).words (unions b).words) := by
  obtain ⟨stored1, represents1⟩ := built a
  obtain ⟨stored2, represents2⟩ := built b
  exact ivUnionCompare_words host represents1 represents2

theorem compare_at {x y : Nat}
    (place : FirstDifference.At (unions a).words (unions b).words x y) :
    ivUnionCompare unions a b = .ok (distance x y) := by
  rw [compare_eq host built, FirstDifference.compare_at place]
  rfl

private theorem compare_same (same : (unions a).words = (unions b).words) :
    ivUnionCompare unions a b = .ok 0 := by
  rw [compare_eq host built, same, FirstDifference.compare_self]
  rfl

theorem compare_longer {y : Nat} {more : List Nat}
    (longer : (unions a).words = (unions b).words ++ y :: more) :
    ivUnionCompare unions a b = .error .tlAssert := by
  rw [compare_eq host built, longer, FirstDifference.compare_longer]
  rfl

omit host in
theorem same_iff : SameAddresses (unions a) (unions b) ↔
    (unions a).words = (unions b).words := by
  obtain ⟨stored1, represents1⟩ := built a
  obtain ⟨stored2, represents2⟩ := built b
  exact represents1.sameAddresses_iff represents2

theorem OrdersUnions.separated (orders : OrdersUnions unions a b c) :
    Separated (unions a).words (unions b).words := by
  obtain ⟨ab, ba, isAb, isBa, equal, negative, -, -⟩ := orders
  constructor
  · intro part
    rcases part with ⟨more, longer⟩ | ⟨more, longer⟩
    · cases more with
      | nil => exact (List.append_nil _).symm.trans longer
      | cons y more =>
          rw [compare_longer host built longer.symm] at isBa
          exact (nomatch isBa)
    · cases more with
      | nil => exact longer.symm.trans (List.append_nil _)
      | cons x more =>
          rw [compare_longer host built longer.symm] at isAb
          exact (nomatch isAb)
  · intro x y place close
    obtain rfl := Except.ok.inj
      ((compare_at host built place).symm.trans isAb)
    obtain rfl := Except.ok.inj
      ((compare_at host built place.symm).symm.trans isBa)
    by_cases congruent : x % 2 ^ 32 = y % 2 ^ 32
    · have same := equal.mp (distance_eq_zero_iff.mpr congruent)
      exact place.ne ((same_iff built).mp same)
    · rw [distance_neg_iff, distance_pos_iff] at negative
      omega

theorem OrdersUnions.near (orders : OrdersUnions unions a b c) :
    Near (unions a).words (unions b).words (unions c).words := by
  have separated := orders.separated host built
  obtain ⟨ab, ba, isAb, -, -, -, -, transitive⟩ := orders
  intro x y z place fromX toY fromY toZ
  have firstPlace := place.first (show x ≠ y by rintro rfl; omega)
  have secondPlace := place.second (show y ≠ z by rintro rfl; omega)
  have distant := separated.distant x y firstPlace
  obtain rfl := Except.ok.inj
    ((compare_at host built firstPlace).symm.trans isAb)
  obtain ⟨ac, isAc, negative⟩ := transitive _
    (compare_at host built secondPlace)
    (distance_neg_iff.mpr ⟨fromX, toY⟩) (distance_neg_iff.mpr ⟨fromY, toZ⟩)
  -- coming back to the first word takes two steps of `2 ^ 31`
  have differ : x ≠ z := by
    rintro rfl
    omega
  obtain rfl := Except.ok.inj
    ((compare_at host built (place.outer differ)).symm.trans isAc)
  rw [distance_neg_iff] at negative
  omega

private theorem transitive_of_near {x y : Nat}
    (firstPlace : FirstDifference.At (unions a).words (unions b).words x y)
    (near : Near (unions a).words (unions b).words (unions c).words)
    (first : distance x y < 0) {bc : Int}
    (isBc : ivUnionCompare unions b c = .ok bc) (second : bc < 0) :
    ∃ ac, ivUnionCompare unions a c = .ok ac ∧ ac < 0 := by
  obtain ⟨more, longer⟩ | ⟨y', more, longer⟩ | ⟨y', z, secondPlace⟩ :=
    FirstDifference.cases (unions b).words (unions c).words
  · rw [compare_eq host built, longer,
      FirstDifference.compare_append] at isBc
    obtain rfl := Except.ok.inj isBc
    omega
  · rw [compare_longer host built longer] at isBc
    exact (nomatch isBc)
  · obtain rfl := Except.ok.inj
      ((compare_at host built secondPlace).symm.trans isBc)
    obtain atFirst | atSecond | ⟨rfl, place⟩ := firstPlace.trans secondPlace
    · exact ⟨_, compare_at host built atFirst, first⟩
    · exact ⟨_, compare_at host built atSecond, second⟩
    · rw [distance_neg_iff] at first second
      have steps := near x y z place first.1 first.2 second.1 second.2
      have differ : x ≠ z := by
        rintro rfl
        omega
      refine ⟨_, compare_at host built (place.outer differ), ?_⟩
      rw [distance_neg_iff]
      omega

/-- Three unions are ordered by `HG_(ivUnionCompare)` as claimed just if the
first words in which they differ are near enough. -/
theorem iv_union_compare_orders_iff :
    OrdersUnions unions a b c ↔
      Separated (unions a).words (unions b).words ∧
      Near (unions a).words (unions b).words (unions c).words := by
  constructor
  · exact fun orders =>
      ⟨orders.separated host built, orders.near host built⟩
  · rintro ⟨separated, near⟩
    by_cases same : (unions a).words = (unions b).words
    · refine ⟨0, 0, compare_same host built same,
        compare_same host built same.symm,
        iff_of_true rfl ((same_iff built).mpr same), by omega, by omega,
        fun bc isBc absurd => ?_⟩
      omega
    · have differs : ∃ x y, FirstDifference.At (unions a).words
          (unions b).words x y := by
        obtain ⟨more, longer⟩ | ⟨y, more, longer⟩ | differs :=
          FirstDifference.cases (unions a).words (unions b).words
        · exact absurd (separated.complete (.inl ⟨more, longer.symm⟩)) same
        · exact absurd (separated.complete
            (.inr ⟨y :: more, longer.symm⟩)) same
        · exact differs
      obtain ⟨x, y, place⟩ := differs
      have distant := separated.distant x y place
      refine ⟨_, _, compare_at host built place,
        compare_at host built place.symm, ?_, ?_, ?_, ?_⟩
      · rw [same_iff built, distance_eq_zero_iff]
        exact iff_of_false (by omega) same
      · rw [distance_neg_iff, distance_pos_iff]
        omega
      · rw [distance_neg_iff, distance_pos_iff]
        omega
      · exact fun bc isBc first second => transitive_of_near host built place
          near first isBc second

end Orders

/-- A new union after one call. -/
def single (start stop : BitVec w) : Ivu w :=
  ((addAll [(start, stop)]).toOption).getD new

theorem single_represents {start stop : BitVec w} (proper : start < stop) :
    ∃ stored, (single start stop).Represents stored := by
  have harmless : (new : Ivu w).Harmless start stop := by simp [Harmless, new]
  obtain ⟨result, added, stored, represents, -⟩ :=
    @Represents.ivUnionAddInterval _ _ _ ⟨start, stop⟩ represents_new proper
      harmless
  have done : addAll [(start, stop)] = .ok result.1 := by
    unfold addAll
    rw [List.foldlM_cons, added]
    rfl
  rw [single, done]
  exact ⟨stored, represents⟩

/-- Three loops of one program. -/
def nearby (ivu : Nat) : Ivu 64 :=
  match ivu with
  | 0 => single 0x400000 0x400010
  | 1 => single 0x400020 0x400030
  | _ => single 0x400040 0x400050

theorem nearby_at_first : FirstDifference.At (nearby 0).words (nearby 1).words
    0x400000 0x400020 :=
  ⟨by decide, [2], [0x400010], [0x400030], by decide +kernel,
    by decide +kernel⟩

theorem nearby_at_second : FirstDifference.At (nearby 1).words (nearby 2).words
    0x400020 0x400040 :=
  ⟨by decide, [2], [0x400030], [0x400050], by decide +kernel,
    by decide +kernel⟩

theorem iv_union_compare_orders_iff_nearby : OrdersUnions nearby 0 1 2 := by
  apply (iv_union_compare_orders_iff (.inr rfl) ?_).mpr
  · refine ⟨⟨fun part => absurd part (by decide +kernel), ?_⟩, ?_⟩
    · intro x y place
      obtain ⟨rfl, rfl⟩ := nearby_at_first.unique place
      decide
    · intro x y z place fromX toY fromY toZ
      have firstPlace := place.first (show x ≠ y by rintro rfl; omega)
      have secondPlace := place.second (show y ≠ z by rintro rfl; omega)
      obtain ⟨rfl, rfl⟩ := nearby_at_first.unique firstPlace
      obtain ⟨-, rfl⟩ := nearby_at_second.unique secondPlace
      decide
  · intro ivu
    match ivu with
    | 0 => exact single_represents (by decide)
    | 1 => exact single_represents (by decide)
    | ivu + 2 => exact single_represents (by decide)

/-- Two code blocks of the same length that lie 4 GiB apart. -/
def farApart (ivu : Nat) : Ivu 64 :=
  match ivu with
  | 0 => single 0x400000 0x400010
  | _ => single 0x100400000 0x100400010

theorem iv_union_compare_far_apart :
    ivUnionCompare farApart 0 1 = .ok 0 ∧
      ¬ SameAddresses (farApart 0) (farApart 1) := by
  refine ⟨by decide +kernel, fun same => ?_⟩
  obtain ⟨ptr, found⟩ := (same 0x400000).mp ⟨0, by decide +kernel⟩
  have notFound : (farApart 1).ivUnionContains 0x400000 = .ok none := by
    decide +kernel
  rw [notFound] at found
  exact (nomatch found)

end Ivu
end HelgrindPlus
