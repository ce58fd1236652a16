import HelgrindPlus.Main.SpinAgreement

/-!
# The records that leaving a loop may invalidate

While a thread leaves a loop without statements of its own, its callbacks may
change the locks of other records.  They give no record another loop or
another writer, and they leave a lock that only the thread holds to it.
-/

namespace HelgrindPlus

open Outcome

namespace SpinLock

/-- Another thread than this one holds the lock. -/
def HeldByOther (tid : Nat) (lk : SpinLock) : Prop :=
  lk.sLk.holders.count tid ≠ lk.sLk.holders.length

/-- When the thread leaves the loop at `ptr`, the record may be invalidated
and its variable written again. -/
structure MayInvalidate (flags : Flags) (tid ptr : Nat) (lk : SpinLock) :
    Prop where
  written : lk.lastSpinWriter ≠ 0
  inLoop : ∃ sp, lk.sp = some sp ∧ sp.codeBlock.ptr = ptr
  doubted : flags.log = true ∨
    lk.lastSpinWriter = tid ∧ lk.HeldByOther tid

/-- The record `lk` has come from `lk₀`. -/
structure Since (tid : Nat) (lk₀ lk : SpinLock) : Prop where
  sp : lk.sp = lk₀.sp
  writer : lk.lastSpinWriter ≠ 0 → lk.lastSpinWriter = lk₀.lastSpinWriter
  held : lk.HeldByOther tid → lk₀.HeldByOther tid

variable {tid ptr : Nat} {flags : Flags} {lk₀ lk₁ lk : SpinLock}

namespace Since

theorem refl (tid : Nat) (lk : SpinLock) : Since tid lk lk :=
  ⟨rfl, fun _ => rfl, id⟩

theorem trans (first : Since tid lk₀ lk₁) (second : Since tid lk₁ lk) :
    Since tid lk₀ lk := by
  constructor
  · exact second.sp.trans first.sp
  · intro written
    have same := second.writer written
    exact same.trans (first.writer (same ▸ written))
  · exact fun held => first.held (second.held held)

theorem of_cleared (sp : lk.sp = lk₀.sp) (cleared : lk.lastSpinWriter = 0)
    (held : lk.HeldByOther tid → lk₀.HeldByOther tid) : Since tid lk₀ lk :=
  ⟨sp, fun written => absurd cleared written, held⟩

theorem mayInvalidate (since : Since tid lk₀ lk)
    (doubted : lk.MayInvalidate flags tid ptr) :
    lk₀.MayInvalidate flags tid ptr := by
  have same := since.writer doubted.written
  constructor
  · exact same ▸ doubted.written
  · exact since.sp ▸ doubted.inLoop
  · apply doubted.doubted.imp_right
    rintro ⟨own, held⟩
    exact ⟨same ▸ own, since.held held⟩

end Since
end SpinLock

namespace Detector

variable {run : Running} {d₀ d₁ d : Detector} {adr : Nat}

/-- What is recorded for a variable has come from what was recorded. -/
def Since (tid : Nat) (d₀ d : Detector) (adr : Nat) : Prop :=
  ∀ lk, d.spinLock adr = some lk →
    ∃ lk₀, d₀.spinLock adr = some lk₀ ∧ SpinLock.Since tid lk₀ lk

theorem Since.refl (tid : Nat) (d : Detector) (adr : Nat) :
    Since tid d d adr :=
  fun lk found => ⟨lk, found, SpinLock.Since.refl tid lk⟩

theorem Since.trans {tid : Nat} (first : Since tid d₀ d₁ adr)
    (second : Since tid d₁ d adr) : Since tid d₀ d adr := by
  intro lk found
  obtain ⟨lk₁, found₁, later⟩ := second lk found
  obtain ⟨lk₀, found₀, earlier⟩ := first lk₁ found₁
  exact ⟨lk₀, found₀, earlier.trans later⟩

/-- If another thread holds the lock of a variable, then one did. -/
def HeldSince (tid : Nat) (d₀ d : Detector) (adr : Nat) : Prop :=
  ∀ lk, d.spinLock adr = some lk → lk.HeldByOther tid →
    ∃ lk₀, d₀.spinLock adr = some lk₀ ∧ lk₀.HeldByOther tid

theorem Since.heldSince {tid : Nat} (since : Since tid d₀ d adr) :
    HeldSince tid d₀ d adr := by
  intro lk found held
  obtain ⟨lk₀, found₀, earlier⟩ := since lk found
  exact ⟨lk₀, found₀, earlier.held held⟩

theorem HeldSince.trans {tid : Nat} (first : HeldSince tid d₀ d₁ adr)
    (second : HeldSince tid d₁ d adr) : HeldSince tid d₀ d adr := by
  intro lk found held
  obtain ⟨lk₁, found₁, held₁⟩ := second lk found held
  exact first lk₁ found₁ held₁

/-- One record is exchanged. -/
theorem Since.insert {tid accAddr : Nat} {map : SpinLocks}
    {lk lk' : SpinLock} (isMap : d₀.mapSpinLocks = some map)
    (found : map.lookup accAddr = some lk)
    (since : SpinLock.Since tid lk lk')
    (inserted : d.mapSpinLocks = some (map.insert accAddr lk')) (adr : Nat) :
    Since tid d₀ d adr := by
  unfold Since spinLock
  rw [isMap, inserted, Option.bind_some, Option.bind_some]
  intro now foundNow
  by_cases same : adr = accAddr
  · rw [same, AList.lookup_insert] at foundNow
    cases foundNow
    exact ⟨lk, same ▸ found, since⟩
  · rw [AList.lookup_insert_ne same] at foundNow
    exact ⟨now, foundNow, SpinLock.Since.refl tid now⟩

/-- The other records stay. -/
theorem Since.elsewhere {accAddr : Nat} {map : SpinLocks} {lk : SpinLock}
    (isMap : d₀.mapSpinLocks = some map)
    (inserted : d.mapSpinLocks = some (map.insert accAddr lk))
    (apart : adr ≠ accAddr) (tid : Nat) : Since tid d₀ d adr := by
  unfold Since spinLock
  rw [isMap, inserted, Option.bind_some, Option.bind_some,
    AList.lookup_insert_ne apart]
  exact fun now found => ⟨now, found, SpinLock.Since.refl tid now⟩

/-- The record that is used for a variable. -/
theorem record_of_lookupOrCreate {map : SpinLocks} {ga : Nat} {lk : SpinLock}
    (done : d.mapSpinLocksLookupOrCreate map ga = .ok lk) :
    map.lookup ga = some lk ∨ map.lookup ga = none ∧ lk = .new ga := by
  unfold mapSpinLocksLookupOrCreate at done
  split at done
  · rename_i known
    cases done
    exact .inl known
  · rename_i unknown
    obtain ⟨-, -, same⟩ := bind_eq_ok.mp done
    cases same
    exact .inr ⟨unknown, rfl⟩

/-- A write changes at most the record of its variable. -/
theorem spinWrite_others {d' : Detector} {atomic isALock : Bool}
    {accAddr : Nat} {exit : Option (Nat × IntervalUnion)}
    (done : d.spinWrite run atomic accAddr = .ok (d', isALock, exit)) {c : Nat}
    (other : c ≠ accAddr) : d'.spinLock c = d.spinLock c := by
  have exchanged : ∀ {map : SpinLocks} {d' : Detector} {lk : SpinLock},
      d.mapSpinLocks = some map →
      d'.mapSpinLocks = some (map.insert accAddr lk) →
      d'.spinLock c = d.spinLock c := by
    intro map d' lk isMap inserted
    rw [spinLock, spinLock, isMap, inserted, Option.bind_some,
      Option.bind_some, AList.lookup_insert_ne other]
  obtain ⟨thread, -, chosen⟩ := bind_eq_ok.mp done
  split at chosen
  · obtain ⟨result, released, finish⟩ := bind_eq_ok.mp chosen
    cases finish
    unfold releaseWrite at released
    split at released
    · cases released
    rename_i map isMap
    split at released
    · cases released
      rfl
    obtain ⟨lk, -, released⟩ := bind_eq_ok.mp released
    obtain ⟨unlocked, -, released⟩ := bind_eq_ok.mp released
    obtain ⟨-, -, released⟩ := bind_eq_ok.mp released
    cases released
    exact exchanged isMap rfl
  · unfold acquireWrite at chosen
    split at chosen
    · cases chosen
    split at chosen
    · split at chosen
      · cases chosen
      rename_i map isMap
      obtain ⟨old, -, chosen⟩ := bind_eq_ok.mp chosen
      dsimp only at chosen
      split at chosen
      · split at chosen
        · cases chosen
        · cases chosen
          exact exchanged isMap rfl
      · cases chosen
        exact exchanged isMap rfl
    · cases chosen
      rfl

section Releases

variable {st : LockTab} {lk : SpinLock}

private theorem releaseBoth_keeps (owner accAddr : Nat) :
    Satisfies (fun _ => True) (releaseBoth st lk owner accAddr) fun result =>
      result.2.2.sp = lk.sp ∧
      result.2.2.lastSpinWriter = lk.lastSpinWriter ∧
      result.2.2.sLk.holders = lk.sLk.holders.erase owner := by
  unfold releaseBoth
  cases released : st.lockNRelease lk.sLk owner with
  | error abort => trivial
  | ok sLk =>
      have holders := (LockTab.lockNRelease_eq_ok released).2.1
      rw [ok_bind]
      apply (Satisfies.any _).bind
      exact fun _ _ => Satisfies.pure ⟨rfl, rfl, holders⟩

/-- A thread that releases a lock releases it for itself, or another thread
holds it. -/
theorem unlock_since (tid accAddr : Nat) :
    Satisfies (fun _ => True) (unlock st tid accAddr lk) fun result =>
      SpinLock.Since tid lk result.2.2.1 := by
  unfold unlock
  split
  · split
    · exact SpinLock.Since.refl tid lk
    · exact ⟨rfl, fun _ => rfl, id⟩
  · rename_i bag isHeld
    have holders : lk.sLk.holders = bag := by
      rw [Lock.holders, isHeld]
      rfl
    split
    · rename_i foreign
      split
      · trivial
      · rename_i realOwner chosen
        apply (releaseBoth_keeps realOwner accAddr).bind
        rintro ⟨st', errors, lk'⟩ ⟨sp, writer, -⟩
        refine Satisfies.pure ⟨sp, fun _ => writer, fun _ => ?_⟩
        have some : bag ≠ [] := by
          rintro rfl
          cases chosen
        rw [SpinLock.HeldByOther, holders, foreign]
        exact (List.length_pos_iff.mpr some).ne
    · rename_i own
      apply (releaseBoth_keeps tid accAddr).bind
      rintro ⟨st', errors, lk'⟩ ⟨sp, writer, rest⟩
      refine Satisfies.pure ⟨sp, fun _ => writer, fun held all => held ?_⟩
      have member : tid ∈ lk.sLk.holders := by
        rw [holders]
        exact List.count_pos_iff.mp (Nat.pos_of_ne_zero own)
      rw [rest, List.count_erase_self, all, List.length_erase_of_mem member]

private theorem releaseWrite_since (accAddr adr : Nat) :
    Satisfies (fun _ => True) (d.releaseWrite run accAddr) fun result =>
      Since run.tid d result.1 adr := by
  unfold releaseWrite
  split
  · trivial
  rename_i map isMap
  split
  · exact Since.refl run.tid d adr
  rename_i lk found
  have noted : Satisfies (fun _ => True) (d.setLastReleaseWriter lk run.tid)
      (SpinLock.Since run.tid lk) := by
    unfold setLastReleaseWriter
    split
    · exact SpinLock.Since.refl run.tid lk
    · apply (Satisfies.any _).bind
      exact fun _ _ => ⟨rfl, fun _ => rfl, id⟩
  apply noted.bind
  intro lk₁ first
  have second : SpinLock.Since run.tid lk₁
      { lk₁ with wasALock := lk₁.wasReleasedBefore && lk₁.wasALock } :=
    ⟨rfl, fun _ => rfl, id⟩
  apply (unlock_since run.tid accAddr).bind
  rintro ⟨locks, errors, lk₂, isALock⟩ third
  apply (Satisfies.any _).bind
  intro _ _
  exact Since.insert isMap found ((first.trans second).trans third) rfl adr

end Releases

/-- In a loop without statements of its own a write that is not atomic is one
outside a loop. -/
theorem callBack_since {accAddr : Nat}
    (empty : run.lastSpinProperty.any fun sp =>
      sp.codeBlock.cntParts == 0) (adr : Nat) :
    Satisfies (fun _ => True) (d.callBack run accAddr)
      fun after => Since run.tid d after adr := by
  obtain ⟨sp, isSp, noParts⟩ := (Option.any_eq_true _ _).mp empty
  unfold callBack plainSpinWrite spinWrite
  have isRelease : ∀ thread, isReleaseWrite run false thread = true := by
    intro thread
    simp [isReleaseWrite, isSp, noParts]
  cases known : d.locks.getThread run.tid with
  | error abort => trivial
  | ok thread =>
      rw [ok_bind, if_pos (isRelease thread)]
      have released := @releaseWrite_since run d accAddr adr
      cases wrote : d.releaseWrite run accAddr with
      | error abort => trivial
      | ok result =>
          rw [wrote] at released
          exact released

end Detector
end HelgrindPlus
