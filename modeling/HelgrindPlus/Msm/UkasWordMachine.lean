import HelgrindPlus.Main.WordSetHandles
import HelgrindPlus.Msm.UkasWords

/-!
# The short hybrid machine on words

`msm_read` and `msm_write` of `libhb_ukas_core.h` as the code has them: the old
and the new state are words, lock sets are handles, and an id is what the
field of a word holds.  They do on words what the machine over values does, as
long as the ids and the handles fit into their fields.
-/

namespace HelgrindPlus.Ukas

open Outcome

/-- The table of lock sets, that of clocks, and what else the function does. -/
abbrev WordResult := WordSetU × VtsTab × MsmOut Nat Word

namespace Word

def vtsIDInvalid : VtsID := 0xFFFFFFFF#32

/-- `HG_(intersectWS)` on the handles of words. -/
def intersectWS (univ : WordSetU) (lset1 lset2 : WordSetID) :
    Except Abort (WordSetU × WordSetID) := do
  let (univ, ws) ← univ.intersectWS lset1.toNat lset2.toNat
  pure (univ, BitVec.ofNat 32 ws)

section Machine

variable (univ : WordSetU) (tab : VtsTab) (svOld : Word) (tvid : VtsID)
  (acc : Access) (getLockSet : Bool → WordSetID)

/-- The branch of `msm_read` for a spin loop. -/
def spinRead : Except Abort WordResult :=
  if acc.wasALock then
    .ok (univ, tab, .stay (mkSpinVar
      (if hasVTS svOld then svOld.setWidth 32 else tvid)))
  else if hasVTS svOld then do
    let lastAccess ← getVTS svOld
    let (tab, vid) ← tab.spinJoin tvid.toNat lastAccess.toNat
    pure (univ, tab, ⟨some vid, mkSpinVar lastAccess, false⟩)
  else .ok (univ, tab, .stay (mkSpinVar tvid))

/-- Without a lock in common there is a race, and else the location is shared
and modified. -/
def shareOrRace (vtsid : VtsID) (lset : WordSetID) : Except Abort WordResult :=
  do
    if ← univ.isEmptyWS lset.toNat then pure (univ, tab, .race mkRace)
    else do
      let svNew ← mkShM vtsid lset
      pure (univ, tab, .stay svNew)

def readBody : Except Abort WordResult :=
  if acc.spinReading then spinRead univ tab svOld tvid acc
  else if acc.atomic && !isSpinVar svOld then .ok (univ, tab, .stay svOld)
  else if isExclW svOld then do
    let vtsidOld ← getVTS svOld
    let (tab, ord) ← tab.getOrdering vtsidOld.toNat tvid.toNat
    if ord.isLeq then pure (univ, tab, .stay (mkExclR tvid))
    else shareOrRace univ tab vtsidOld (getLockSet true)
  else if isExclR svOld then do
    let vtsidOld ← getVTS svOld
    let (tab, ord) ← tab.getOrdering vtsidOld.toNat tvid.toNat
    match ord with
    | .eq => pure (univ, tab, .stay svOld)
    | .lt => pure (univ, tab, .stay (mkExclR tvid))
    | _ => do
        let svNew ← mkShR vtsidOld (getLockSet true)
        pure (univ, tab, .stay svNew)
  else if isShR svOld then do
    let lsetOld ← getLset svOld
    let (univ, lsetNew) ← intersectWS univ lsetOld (getLockSet true)
    let vtsidOld ← getVTS svOld
    let svNew ← mkShR vtsidOld lsetNew
    pure (univ, tab, .stay svNew)
  else if isShM svOld then do
    let lsetOld ← getLset svOld
    let (univ, lsetNew) ← intersectWS univ lsetOld (getLockSet true)
    let vtsidOld ← getVTS svOld
    if ← univ.isEmptyWS lsetNew.toNat then do
      let (tab, ord) ← tab.getOrdering vtsidOld.toNat tvid.toNat
      if ord.isLeq then pure (univ, tab, .stay (mkExclR tvid))
      else pure (univ, tab, .race mkRace)
    else do
      let svNew ← mkShM tvid lsetNew
      pure (univ, tab, .stay svNew)
  else if isSpinVar svOld then do
    let lastWrite ← getVTS svOld
    if lastWrite ≠ vtsIDInvalid then do
      let (tab, vid) ← tab.spinJoin tvid.toNat lastWrite.toNat
      pure (univ, tab, ⟨some vid, svOld, false⟩)
    else pure (univ, tab, .stay svOld)
  else if isRace svOld then .ok (univ, tab, .stay svalRace)
  else if isNew svOld then .ok (univ, tab, .stay (mkExclR tvid))
  else if isNoAccess svOld then .ok (univ, tab, .stay svalNoAccess)
  else .error .tlAssert

def writeBody : Except Abort WordResult :=
  if acc.atomic && !isSpinVar svOld then .ok (univ, tab, .stay svOld)
  else if isNew svOld then .ok (univ, tab, .stay (mkExclW tvid))
  else if isExclW svOld then do
    let vtsidOld ← getVTS svOld
    let (tab, ord) ← tab.getOrdering vtsidOld.toNat tvid.toNat
    if ord.isLeq then pure (univ, tab, .stay (mkExclW tvid))
    else shareOrRace univ tab vtsidOld (getLockSet false)
  else if isExclR svOld then do
    let vtsidOld ← getVTS svOld
    let (tab, ord) ← tab.getOrdering vtsidOld.toNat tvid.toNat
    if ord.isLeq then pure (univ, tab, .stay (mkExclW tvid))
    else shareOrRace univ tab vtsidOld (getLockSet false)
  else if isShR svOld then do
    let vtsidOld ← getVTS svOld
    let lsetOld ← getLset svOld
    let (univ, lsetNew) ← intersectWS univ lsetOld (getLockSet false)
    if ← univ.isEmptyWS lsetNew.toNat then do
      let (tab, ord) ← tab.getOrdering vtsidOld.toNat tvid.toNat
      if ord.isLeq then do
        let svNew ← mkShM tvid lsetNew
        pure (univ, tab, .stay svNew)
      else pure (univ, tab, .race mkRace)
    else do
      let svNew ← mkShM vtsidOld lsetNew
      pure (univ, tab, .stay svNew)
  else if isShM svOld then do
    let lsetOld ← getLset svOld
    let (univ, lsetNew) ← intersectWS univ lsetOld (getLockSet false)
    let vtsidOld ← getVTS svOld
    if ← univ.isEmptyWS lsetNew.toNat then do
      let (tab, ord) ← tab.getOrdering vtsidOld.toNat tvid.toNat
      if ord.isLeq then pure (univ, tab, .stay (mkExclW tvid))
      else pure (univ, tab, .race mkRace)
    else do
      let svNew ← mkShM tvid lsetNew
      pure (univ, tab, .stay svNew)
  else if isSpinVar svOld then
    if acc.wasALock then .ok (univ, tab, .stay svOld)
    else do
      let (tab, vid) ← tab.spinTick tvid.toNat acc.thr
      pure (univ, tab, ⟨some vid, mkSpinVar tvid, false⟩)
  else if isRace svOld then .ok (univ, tab, .stay svalRace)
  else if isNoAccess svOld then .ok (univ, tab, .stay svalNoAccess)
  else .error .tlAssert

/-- The reference around a body. -/
def counted (body : VtsTab → Except Abort WordResult) :
    Except Abort WordResult := do
  let tab ← tab.rcinc tvid.toNat
  let (univ, tab, out) ← body tab
  let tab ← tab.rcdec tvid.toNat
  pure (univ, tab, out)

def msmRead : Except Abort WordResult :=
  counted tab tvid fun tab => readBody univ tab svOld tvid acc getLockSet

def msmWrite : Except Abort WordResult :=
  counted tab tvid fun tab => writeBody univ tab svOld tvid acc getLockSet

def msm : Except Abort WordResult :=
  if acc.isWrite then msmWrite univ tab svOld tvid acc getLockSet
  else msmRead univ tab svOld tvid acc getLockSet

end Machine

end Word

/-- The value of the machine that a shadow value stands for.  Handles are
those of the given table. -/
inductive Shadow.Denotes (ix2vec : List (List Nat)) :
    Shadow → SVal Nat → Prop where
  | SpinVar {vtsid : ClockID} {ii : Nat} (named : vtsid.val.toNat = ii) :
      Shadow.Denotes ix2vec (.SpinVar vtsid) (.SpinVar ii)
  | ShM {vtsid : ClockID} {ii : Nat} {lset : LockSetID} {set : Finset Nat}
      (named : vtsid.val.toNat = ii)
      (locks : WordSetU.Denotes ix2vec lset.val.toNat set) :
      Shadow.Denotes ix2vec (.ShM vtsid lset) (.ShM ii set)
  | ShR {vtsid : ClockID} {ii : Nat} {lset : LockSetID} {set : Finset Nat}
      (named : vtsid.val.toNat = ii)
      (locks : WordSetU.Denotes ix2vec lset.val.toNat set) :
      Shadow.Denotes ix2vec (.ShR vtsid lset) (.ShR ii set)
  | ExclR {vtsid : ClockID} {ii : Nat} (named : vtsid.val.toNat = ii) :
      Shadow.Denotes ix2vec (.ExclR vtsid) (.ExclR ii)
  | ExclW {vtsid : ClockID} {ii : Nat} (named : vtsid.val.toNat = ii) :
      Shadow.Denotes ix2vec (.ExclW vtsid) (.ExclW ii)
  | Race : Shadow.Denotes ix2vec .Race .Race
  | New : Shadow.Denotes ix2vec .New .New
  | NoAccess : Shadow.Denotes ix2vec .NoAccess .NoAccess

theorem ClockID.ext {vtsid vtsid' : ClockID}
    (same : vtsid.val.toNat = vtsid'.val.toNat) : vtsid = vtsid' :=
  Subtype.ext (BitVec.eq_of_toNat_eq same)

theorem LockSetID.ext {lset lset' : LockSetID}
    (same : lset.val.toNat = lset'.val.toNat) : lset = lset' :=
  Subtype.ext (BitVec.eq_of_toNat_eq same)

namespace Word

def Stands (ix2vec : List (List Nat)) (sv : Word) (value : SVal Nat) : Prop :=
  ∃ shadow : Shadow, shadow.Laid sv ∧ shadow.Denotes ix2vec value

section Standing

variable {ix2vec ix2vec' : List (List Nat)} {sv sv' : Word}
  {value value' : SVal Nat} {vtsid : VtsID} {lset : WordSetID}
  {set : Finset Nat}

theorem Stands.mono (stands : Stands ix2vec sv value)
    (grown : ix2vec <+: ix2vec') : Stands ix2vec' sv value := by
  obtain ⟨shadow, laid, denotes⟩ := stands
  refine ⟨shadow, laid, ?_⟩
  cases denotes with
  | SpinVar named => exact .SpinVar named
  | ShM named locks => exact .ShM named (locks.mono grown)
  | ShR named locks => exact .ShR named (locks.mono grown)
  | ExclR named => exact .ExclR named
  | ExclW named => exact .ExclW named
  | Race => exact .Race
  | New => exact .New
  | NoAccess => exact .NoAccess

/-- A word stands for one value. -/
theorem Stands.unique (stands : Stands ix2vec sv value)
    (stands' : Stands ix2vec sv value') : value = value' := by
  obtain ⟨shadow, laid, denotes⟩ := stands
  obtain ⟨shadow', laid', denotes'⟩ := stands'
  cases laid.unique laid'
  cases denotes with
  | SpinVar named | ExclR named | ExclW named =>
      cases denotes'
      next named' => rw [← named, ← named']
  | ShM named locks =>
      cases denotes' with
      | ShM named' locks' => rw [← named, ← named', locks.unique locks']
  | ShR named locks =>
      cases denotes' with
      | ShR named' locks' => rw [← named, ← named', locks.unique locks']
  | Race | New | NoAccess => cases denotes'; rfl

/-- Where the words differ the values differ, which is how the machine looks
for a change. -/
theorem Stands.injective {univ : WordSetU} (table : univ.Table)
    (stands : Stands univ.ix2vec sv value)
    (stands' : Stands univ.ix2vec sv' value) : sv = sv' := by
  obtain ⟨shadow, laid, denotes⟩ := stands
  obtain ⟨shadow', laid', denotes'⟩ := stands'
  have same : shadow = shadow' := by
    cases denotes with
    | SpinVar named | ExclR named | ExclW named =>
        cases denotes'
        next named' => rw [ClockID.ext (named.trans named'.symm)]
    | ShM named locks =>
        cases denotes' with
        | ShM named' locks' =>
            rw [ClockID.ext (named.trans named'.symm),
              LockSetID.ext (table.denotes_injective locks locks')]
    | ShR named locks =>
        cases denotes' with
        | ShR named' locks' =>
            rw [ClockID.ext (named.trans named'.symm),
              LockSetID.ext (table.denotes_injective locks locks')]
    | Race | New | NoAccess => cases denotes'; rfl
  subst same
  exact BitVec.eq_of_toNat_eq (laid.shares.trans laid'.shares.symm)

theorem stands_mkSpinVar (fits : vtsid.toNat < 2 ^ 30) :
    Stands ix2vec (mkSpinVar vtsid) (.SpinVar vtsid.toNat) :=
  ⟨.SpinVar ⟨vtsid, fits⟩, Shadow.laid_mkMasked ⟨vtsid, fits⟩ (by decide),
    .SpinVar rfl⟩

theorem stands_mkExclR (fits : vtsid.toNat < 2 ^ 30) :
    Stands ix2vec (mkExclR vtsid) (.ExclR vtsid.toNat) :=
  ⟨.ExclR ⟨vtsid, fits⟩, Shadow.laid_mkMasked ⟨vtsid, fits⟩ (by decide),
    .ExclR rfl⟩

theorem stands_mkExclW (fits : vtsid.toNat < 2 ^ 30) :
    Stands ix2vec (mkExclW vtsid) (.ExclW vtsid.toNat) :=
  ⟨.ExclW ⟨vtsid, fits⟩, Shadow.laid_mkMasked ⟨vtsid, fits⟩ (by decide),
    .ExclW rfl⟩

theorem stands_mkRace : Stands ix2vec mkRace .Race :=
  ⟨.Race, (Shadow.Race.encode_laid).of_eq_ok rfl, .Race⟩

private theorem stands_svalNoAccess : Stands ix2vec svalNoAccess .NoAccess :=
  ⟨.NoAccess, (Shadow.NoAccess.encode_laid).of_eq_ok rfl, .NoAccess⟩

theorem mkShM_stands (fits : vtsid.toNat < 2 ^ 30) (few : lset.toNat < 2 ^ 28)
    (locks : WordSetU.Denotes ix2vec lset.toNat set) :
    Returns (mkShM vtsid lset) (Stands ix2vec · (.ShM vtsid.toNat set)) :=
  (mkShared_hasFields (by decide) few fits).mono fun _ laid =>
    ⟨.ShM ⟨vtsid, fits⟩ ⟨lset, few⟩, laid, .ShM rfl locks⟩

theorem mkShR_stands (fits : vtsid.toNat < 2 ^ 30) (few : lset.toNat < 2 ^ 28)
    (locks : WordSetU.Denotes ix2vec lset.toNat set) :
    Returns (mkShR vtsid lset) (Stands ix2vec · (.ShR vtsid.toNat set)) :=
  (mkShared_hasFields (by decide) few fits).mono fun _ laid =>
    ⟨.ShR ⟨vtsid, fits⟩ ⟨lset, few⟩, laid, .ShR rfl locks⟩

end Standing

end Word

/-- A step on words next to one on values. -/
structure Matches (univ : WordSetU) (result : WordResult)
    (expected : VtsTab × MsmOut Nat (SVal Nat)) : Prop where
  grows : WordSetU.Grows univ result.1
  tab : result.2.1 = expected.1
  vid : result.2.2.vid = expected.2.vid
  svNew : Word.Stands result.1.ix2vec result.2.2.svNew expected.2.svNew
  raced : result.2.2.raced = expected.2.raced

section Steps

variable {univ univ' : WordSetU} {tab : VtsTab} {sv : Word} {value : SVal Nat}
  {shadow : Shadow} {tvid vtsid : VtsID} {lset lset1 lset2 : WordSetID}
  {set set1 set2 : Finset Nat} {acc : Access} {getLockSet : Bool → WordSetID}

theorem Matches.stay (grows : WordSetU.Grows univ univ')
    (stands : Word.Stands univ'.ix2vec sv value) :
    Matches univ (univ', tab, .stay sv) (tab, .stay value) :=
  ⟨grows, rfl, rfl, stands, rfl⟩

theorem Matches.race (grows : WordSetU.Grows univ univ') :
    Matches univ (univ', tab, .race Word.mkRace) (tab, .race .Race) :=
  ⟨grows, rfl, rfl, Word.stands_mkRace, rfl⟩

theorem intersectWS_returns (wf : univ.WF)
    (few : univ.ix2vec.length < 2 ^ 28)
    (first : WordSetU.Denotes univ.ix2vec lset1.toNat set1)
    (second : WordSetU.Denotes univ.ix2vec lset2.toNat set2) :
    Returns (Word.intersectWS univ lset1 lset2) (fun out =>
      WordSetU.Grows univ out.1 ∧ out.2.toNat < 2 ^ 28 ∧
        WordSetU.Denotes out.1.ix2vec out.2.toNat (set1 ∩ set2)) := by
  obtain ⟨⟨univ', ws⟩, done, grows, locks⟩ :=
    wf.intersectWS_returns first second
  have adds := (univ.intersectWS_addsOne _ _).of_eq_ok done
  have inside := locks.lt
  dsimp only [WordSetU.AddsOne] at adds inside
  have kept : (BitVec.ofNat 32 ws).toNat = ws := by
    rw [BitVec.toNat_ofNat]
    omega
  rw [Word.intersectWS, done, ok_bind]
  refine Returns.pure ⟨grows, ?_, ?_⟩
  · dsimp only
    omega
  · dsimp only
    rwa [kept]

theorem shareOrRace_agrees (wf : univ'.WF) (grows : WordSetU.Grows univ univ')
    (fits : vtsid.toNat < 2 ^ 30) (few : lset.toNat < 2 ^ 28)
    (locks : WordSetU.Denotes univ'.ix2vec lset.toNat set) :
    Agrees (Word.shareOrRace univ' tab vtsid lset)
      (if set = ∅ then pure (tab, .race .Race)
        else pure (tab, .stay (.ShM vtsid.toNat set))) (Matches univ) := by
  rw [Word.shareOrRace, wf.isEmptyWS_eq locks, ok_bind]
  simp only [decide_eq_true_eq]
  split
  · exact Returns.pure (.race grows)
  · exact (Word.mkShM_stands fits few locks).bind fun svNew stands =>
      Returns.pure (.stay grows stands)

end Steps

section Bodies

variable {univ : WordSetU} {tab : VtsTab} {sv : Word} {value : SVal Nat}
  {shadow : Shadow} {tvid : VtsID} {acc : Access}
  {getLockSet : Bool → WordSetID}

/-- The id in a value is the one in its word. -/
theorem Shadow.Denotes.getVTS {ix2vec : List (List Nat)}
    (denotes : shadow.Denotes ix2vec value) :
    value.getVTS = shadow.vtsid.map (·.val.toNat) := by
  cases denotes with
  | SpinVar named | ExclR named | ExclW named => rw [← named]; rfl
  | ShM named locks | ShR named locks => rw [← named]; rfl
  | Race | New | NoAccess => rfl

theorem Shadow.Denotes.isSpinVar {ix2vec : List (List Nat)}
    (denotes : shadow.Denotes ix2vec value) (laid : shadow.Laid sv) :
    Word.isSpinVar sv = value.isSpinVar := by
  rw [laid.isSpinVar_eq]
  cases denotes <;> rfl

private theorem spinRead_agrees (wf : univ.WF) (laid : shadow.Laid sv)
    (denotes : shadow.Denotes univ.ix2vec value)
    (fits : tvid.toNat < 2 ^ 30) :
    Agrees (Word.spinRead univ tab sv tvid acc)
      (spinRead tab value tvid.toNat acc) (Matches univ) := by
  have still : WordSetU.Grows univ univ := ⟨wf.toTable, List.prefix_rfl, rfl⟩
  rw [Word.spinRead, spinRead, denotes.getVTS, laid.hasVTS_eq]
  cases carries : shadow.vtsid with
  | none =>
      have own : Matches univ (univ, tab, .stay (Word.mkSpinVar tvid))
          (tab, .stay (.SpinVar tvid.toNat)) :=
        .stay still (Word.stands_mkSpinVar fits)
      split
      · exact Returns.ok own
      · exact Returns.ok own
  | some last =>
      have stands : Word.Stands univ.ix2vec (Word.mkSpinVar last.val)
          (.SpinVar last.val.toNat) :=
        Word.stands_mkSpinVar last.property
      have has : Word.hasVTS sv = true := by
        rw [laid.hasVTS_eq, carries]
        rfl
      have told := laid.getVTS_eq carries
      split
      · -- the whole word is handed to `SVal__mk_SpinVar`
        have truncated : Word.mkSpinVar (sv.setWidth 32) =
            Word.mkSpinVar last.val :=
          (Word.mkSpinVar_setWidth has).of_eq_ok told
        simp only [Option.isSome_some, if_true, Option.map_some, truncated]
        exact Returns.ok (.stay still stands)
      · simp only [Option.isSome_some, if_true, Option.map_some, told, ok_bind]
        apply (Agrees.refl _).bind
        rintro ⟨tab', vid⟩ _ rfl
        exact Returns.pure ⟨still, rfl, rfl, stands, rfl⟩

end Bodies

/-- What the step finds: the sets and the clocks that the word and the thread
refer to, and room for one more set. -/
structure Ready (univ : WordSetU) (sv : Word) (value : SVal Nat)
    (tvid : VtsID) (acc : Access) (getLockSet : Bool → WordSetID) : Prop where
  wf : univ.WF
  room : univ.ix2vec.length < 2 ^ 28
  stands : Word.Stands univ.ix2vec sv value
  fits : tvid.toNat < 2 ^ 30
  locks : ∀ allLocks, WordSetU.Denotes univ.ix2vec
    (getLockSet allLocks).toNat (acc.getLockSet allLocks)

section Ready

variable {univ : WordSetU} {tab : VtsTab} {sv : Word} {value : SVal Nat}
  {shadow : Shadow} {tvid : VtsID} {acc : Access}
  {getLockSet : Bool → WordSetID}

theorem Ready.few (ready : Ready univ sv value tvid acc getLockSet)
    (allLocks : Bool) : (getLockSet allLocks).toNat < 2 ^ 28 :=
  (ready.locks allLocks).lt.trans ready.room

theorem readBody_agrees (ready : Ready univ sv value tvid acc getLockSet) :
    Agrees (Word.readBody univ tab sv tvid acc getLockSet)
      (readBody tab value tvid.toNat acc) (Matches univ) := by
  have few := ready.few true
  obtain ⟨wf, room, ⟨shadow, laid, denotes⟩, fits, locks⟩ := ready
  have still : WordSetU.Grows univ univ := ⟨wf.toTable, List.prefix_rfl, rfl⟩
  have stands : Word.Stands univ.ix2vec sv value := ⟨shadow, laid, denotes⟩
  have held := locks true
  rw [Word.readBody, readBody.eq_def]
  split
  · exact spinRead_agrees wf laid denotes fits
  rw [← denotes.isSpinVar laid]
  split
  · exact Returns.ok (.stay still stands)
  simp only [laid.isExclW_eq, laid.isExclR_eq, laid.isShR_eq, laid.isShM_eq,
    laid.isSpinVar_eq, laid.isRace_eq, laid.isNew_eq, laid.isNoAccess_eq]
  cases denotes with
  | @ExclW vtsid ii named =>
      subst named
      simp only [Shadow.state, decide_true, if_true]
      rw [laid.getVTS_eq rfl, ok_bind]
      apply (Agrees.refl _).bind
      rintro ⟨tab', ord⟩ _ rfl
      dsimp only
      split
      · exact Returns.pure (.stay still (Word.stands_mkExclR fits))
      · exact shareOrRace_agrees wf still vtsid.property few held
  | @ExclR vtsid ii named =>
      subst named
      simp only [Shadow.state, reduceCtorEq, decide_false, decide_true,
        Bool.false_eq_true, if_true, if_false]
      rw [laid.getVTS_eq rfl, ok_bind]
      apply (Agrees.refl _).bind
      rintro ⟨tab', ord⟩ _ rfl
      cases ord with
      | eq => exact Returns.pure (.stay still stands)
      | lt => exact Returns.pure (.stay still (Word.stands_mkExclR fits))
      | _ =>
          exact (Word.mkShR_stands vtsid.property few held).bind
            fun svNew stands => Returns.pure (.stay still stands)
  | @ShR vtsid ii lset set named own =>
      subst named
      simp only [Shadow.state, reduceCtorEq, decide_false, decide_true,
        Bool.false_eq_true, if_true, if_false]
      obtain ⟨⟨univ', lsetNew⟩, done, grows, few', common⟩ :=
        intersectWS_returns wf room own held
      rw [laid.getLset_eq rfl, ok_bind, done, ok_bind, laid.getVTS_eq rfl,
        ok_bind]
      exact (Word.mkShR_stands vtsid.property few' common).bind
        fun svNew stands => Returns.pure (.stay grows stands)
  | @ShM vtsid ii lset set named own =>
      subst named
      simp only [Shadow.state, reduceCtorEq, decide_false, decide_true,
        Bool.false_eq_true, if_true, if_false]
      obtain ⟨⟨univ', lsetNew⟩, done, grows, few', common⟩ :=
        intersectWS_returns wf room own held
      have wf' := grows.wf wf
      rw [laid.getLset_eq rfl, ok_bind, done, ok_bind, laid.getVTS_eq rfl,
        ok_bind]
      dsimp only at grows few' common wf' ⊢
      rw [wf'.isEmptyWS_eq common, ok_bind]
      simp only [decide_eq_true_eq]
      split
      · apply (Agrees.refl _).bind
        rintro ⟨tab', ord⟩ _ rfl
        dsimp only
        split
        · exact Returns.pure (.stay grows (Word.stands_mkExclR fits))
        · exact Returns.pure (.race grows)
      · exact (Word.mkShM_stands fits few' common).bind
          fun svNew stands => Returns.pure (.stay grows stands)
  | @SpinVar vtsid ii named =>
      subst named
      simp only [Shadow.state, reduceCtorEq, decide_false, decide_true,
        Bool.false_eq_true, if_true, if_false]
      have valid : vtsid.val ≠ Word.vtsIDInvalid := by
        intro same
        have small := vtsid.property
        rw [same] at small
        exact absurd small (by decide)
      rw [laid.getVTS_eq rfl, ok_bind, if_pos valid]
      apply (Agrees.refl _).bind
      rintro ⟨tab', vid⟩ _ rfl
      exact Returns.pure ⟨still, rfl, rfl, stands, rfl⟩
  | Race => exact Returns.ok (.stay still Word.stands_mkRace)
  | New => exact Returns.ok (.stay still (Word.stands_mkExclR fits))
  | NoAccess => exact Returns.ok (.stay still Word.stands_svalNoAccess)

theorem writeBody_agrees (ready : Ready univ sv value tvid acc getLockSet) :
    Agrees (Word.writeBody univ tab sv tvid acc getLockSet)
      (writeBody tab value tvid.toNat acc) (Matches univ) := by
  have few := ready.few false
  obtain ⟨wf, room, ⟨shadow, laid, denotes⟩, fits, locks⟩ := ready
  have still : WordSetU.Grows univ univ := ⟨wf.toTable, List.prefix_rfl, rfl⟩
  have stands : Word.Stands univ.ix2vec sv value := ⟨shadow, laid, denotes⟩
  have held := locks false
  rw [Word.writeBody, writeBody.eq_def, ← denotes.isSpinVar laid]
  split
  · exact Returns.ok (.stay still stands)
  simp only [laid.isExclW_eq, laid.isExclR_eq, laid.isShR_eq, laid.isShM_eq,
    laid.isSpinVar_eq, laid.isRace_eq, laid.isNew_eq, laid.isNoAccess_eq]
  cases denotes with
  | New => exact Returns.ok (.stay still (Word.stands_mkExclW fits))
  | @ExclW vtsid ii named | @ExclR vtsid ii named =>
      subst named
      simp only [Shadow.state, reduceCtorEq, decide_false, decide_true,
        Bool.false_eq_true, if_true, if_false]
      rw [laid.getVTS_eq rfl, ok_bind]
      apply (Agrees.refl _).bind
      rintro ⟨tab', ord⟩ _ rfl
      dsimp only
      split
      · exact Returns.pure (.stay still (Word.stands_mkExclW fits))
      · exact shareOrRace_agrees wf still vtsid.property few held
  | @ShR vtsid ii lset set named own =>
      subst named
      simp only [Shadow.state, reduceCtorEq, decide_false, decide_true,
        Bool.false_eq_true, if_true, if_false]
      obtain ⟨⟨univ', lsetNew⟩, done, grows, few', common⟩ :=
        intersectWS_returns wf room own held
      have wf' := grows.wf wf
      rw [laid.getVTS_eq rfl, ok_bind, laid.getLset_eq rfl, ok_bind, done,
        ok_bind]
      dsimp only at grows few' common wf' ⊢
      rw [wf'.isEmptyWS_eq common, ok_bind]
      simp only [decide_eq_true_eq]
      split
      · apply (Agrees.refl _).bind
        rintro ⟨tab', ord⟩ _ rfl
        dsimp only
        split
        · exact (Word.mkShM_stands fits few' common).bind
            fun svNew stands => Returns.pure (.stay grows stands)
        · exact Returns.pure (.race grows)
      · exact (Word.mkShM_stands vtsid.property few' common).bind
          fun svNew stands => Returns.pure (.stay grows stands)
  | @ShM vtsid ii lset set named own =>
      subst named
      simp only [Shadow.state, reduceCtorEq, decide_false, decide_true,
        Bool.false_eq_true, if_true, if_false]
      obtain ⟨⟨univ', lsetNew⟩, done, grows, few', common⟩ :=
        intersectWS_returns wf room own held
      have wf' := grows.wf wf
      rw [laid.getLset_eq rfl, ok_bind, done, ok_bind, laid.getVTS_eq rfl,
        ok_bind]
      dsimp only at grows few' common wf' ⊢
      rw [wf'.isEmptyWS_eq common, ok_bind]
      simp only [decide_eq_true_eq]
      split
      · apply (Agrees.refl _).bind
        rintro ⟨tab', ord⟩ _ rfl
        dsimp only
        split
        · exact Returns.pure (.stay grows (Word.stands_mkExclW fits))
        · exact Returns.pure (.race grows)
      · exact (Word.mkShM_stands fits few' common).bind
          fun svNew stands => Returns.pure (.stay grows stands)
  | @SpinVar vtsid ii named =>
      simp only [Shadow.state, reduceCtorEq, decide_false, decide_true,
        Bool.false_eq_true, if_true, if_false]
      split
      · exact Returns.ok (.stay still stands)
      · apply (Agrees.refl _).bind
        rintro ⟨tab', vid⟩ _ rfl
        exact Returns.pure ⟨still, rfl, rfl, Word.stands_mkSpinVar fits, rfl⟩
  | Race => exact Returns.ok (.stay still Word.stands_mkRace)
  | NoAccess => exact Returns.ok (.stay still Word.stands_svalNoAccess)

/-- The reference around a body is taken from the same table on both sides. -/
theorem counted_agrees {body : VtsTab → Except Abort WordResult}
    {spec : VtsTab → Except Abort (VtsTab × MsmOut Nat (SVal Nat))}
    (agrees : ∀ tab, Agrees (body tab) (spec tab) (Matches univ)) :
    Agrees (Word.counted tab tvid body) (do
      let tab ← tab.rcinc tvid.toNat
      let (tab, out) ← spec tab
      let tab ← tab.rcdec tvid.toNat
      pure (tab, out)) (Matches univ) := by
  apply (Agrees.refl _).bind
  rintro tab₁ _ rfl
  apply (agrees tab₁).bind
  rintro ⟨univ', tab₂, out⟩ ⟨_, out'⟩ ⟨grows, rfl, vid, svNew, raced⟩
  apply (Agrees.refl _).bind
  rintro tab₃ _ rfl
  exact Returns.pure ⟨grows, rfl, vid, svNew, raced⟩

/-- A read or a write of a location on words is the one on values. -/
theorem msm_agrees (ready : Ready univ sv value tvid acc getLockSet) :
    Agrees (Word.msm univ tab sv tvid acc getLockSet)
      (machine.msm tab value tvid.toNat acc) (Matches univ) := by
  rw [Word.msm, HybridMachine.msm]
  split
  · exact counted_agrees fun tab => writeBody_agrees ready
  · exact counted_agrees fun tab => readBody_agrees ready

end Ready

/-- A location under observation, next to `LocLog`. -/
structure WordLog where
  univ : WordSetU
  tab : VtsTab
  sv : Word
  log : List (Word × Bool)

/-- An access with the handles of its thread's lock sets. -/
structure HeldAccess where
  timed : Timed
  getLockSet : Bool → WordSetID

namespace WordLog

def access (state : WordLog) (event : HeldAccess) : Except Abort WordLog := do
  let (tab, vid) ← state.tab.findAndDeallocOrAdd event.timed.clock
  let tab ← tab.rcinc vid
  let (univ, tab, out) ← Word.msm state.univ tab state.sv (BitVec.ofNat 32 vid)
    event.timed.acc event.getLockSet
  let tab ← tab.rcdec (out.vid.getD vid)
  pure ⟨univ, tab, out.svNew, state.log ++ [(out.svNew, out.raced)]⟩

def run (univ : WordSetU) (tab : VtsTab) (events : List HeldAccess) :
    Except Abort WordLog :=
  events.foldlM access ⟨univ, tab, Word.svalNew, []⟩

/-- The log of values that a log of words stands for. -/
structure Related (state : WordLog) (expected : LocLog (SVal Nat)) : Prop where
  wf : state.univ.WF
  tab : state.tab = expected.tab
  sv : Word.Stands state.univ.ix2vec state.sv expected.sv
  log : List.Forall₂ (fun entry entry' =>
    Word.Stands state.univ.ix2vec entry.1 entry'.1 ∧ entry.2 = entry'.2)
    state.log expected.log

/-- The handles that the thread comes with are in use, and the table of lock
sets and that of clocks are small enough for the fields of a word. -/
structure Small (state : WordLog) (event : HeldAccess) : Prop where
  room : state.univ.ix2vec.length < 2 ^ 28
  locks : ∀ allLocks, WordSetU.Denotes state.univ.ix2vec
    (event.getLockSet allLocks).toNat
    (event.timed.acc.getLockSet allLocks)
  fits : ∀ tab vid, state.tab.findAndDeallocOrAdd event.timed.clock =
    .ok (tab, vid) → vid < 2 ^ 30

private theorem access_agrees {state : WordLog} {expected : LocLog (SVal Nat)}
    {event : HeldAccess} (related : state.Related expected)
    (small : state.Small event) :
    Agrees (state.access event) (machine.access expected event.timed)
      Related := by
  obtain ⟨wf, tabs, stands, log⟩ := related
  rw [access, HybridMachine.access, ← tabs]
  cases found : state.tab.findAndDeallocOrAdd event.timed.clock with
  | error abort => rfl
  | ok result =>
      obtain ⟨tab₁, vid⟩ := result
      have fits := small.fits tab₁ vid found
      have kept : (BitVec.ofNat 32 vid).toNat = vid := by
        rw [BitVec.toNat_ofNat]
        omega
      have ready : Ready state.univ state.sv expected.sv
          (BitVec.ofNat 32 vid) event.timed.acc event.getLockSet :=
        ⟨wf, small.room, stands, kept.symm ▸ fits, small.locks⟩
      rw [ok_bind, ok_bind]
      apply (Agrees.refl _).bind
      rintro tab₂ _ rfl
      have step := @msm_agrees _ tab₂ _ _ _ _ _ ready
      rw [kept] at step
      apply step.bind
      rintro ⟨univ', tab₃, out⟩ ⟨_, out'⟩ ⟨grows, rfl, moved, svNew, raced⟩
      dsimp only at grows moved svNew raced ⊢
      rw [← moved]
      apply (Agrees.refl _).bind
      rintro tab₄ _ rfl
      refine Returns.pure ⟨grows.wf wf, rfl, svNew, ?_⟩
      refine List.rel_append (log.imp ?_) (.cons ⟨svNew, raced⟩ .nil)
      rintro entry entry' ⟨stands, same⟩
      exact ⟨stands.mono grows.grown, same⟩

/-- As long as everything fits into its field, a run on words goes through
the words of the values of the run of the machine, and reports alike. -/
theorem run_agrees {univ : WordSetU} (wf : univ.WF) (tab : VtsTab)
    (events : List HeldAccess)
    (small : ∀ n state event, run univ tab (events.take n) = .ok state →
      events[n]? = some event → state.Small event) (n : Nat) :
    Agrees (run univ tab (events.take n))
      (machine.run tab ((events.take n).map (·.timed))) Related := by
  refine take_induction ?_ (fun n event atN induction => ?_) n
  · exact Returns.pure ⟨wf, rfl,
      ⟨.New, (Shadow.New.encode_laid).of_eq_ok rfl, .New⟩, .nil⟩
  have timed : ((events.take (n + 1)).map (·.timed)) =
      (events.take n).map (·.timed) ++ [event.timed] := by
    simp [List.take_add_one, atN]
  have next : run univ tab (events.take (n + 1)) =
      run univ tab (events.take n) >>= (access · event) :=
    foldlM_take_succ atN _
  have next' : machine.run tab ((events.take n).map (·.timed) ++
      [event.timed]) = machine.run tab ((events.take n).map (·.timed))
        >>= (machine.access · event.timed) := by
    simp [HybridMachine.run, List.foldlM_append]
  rw [timed, next, next']
  cases ended : machine.run tab ((events.take n).map (·.timed)) with
  | error abort =>
      rw [ended] at induction
      have failed : run univ tab (events.take n) = .error abort := induction
      rw [failed]
      rfl
  | ok expected =>
      rw [ended] at induction
      obtain ⟨state, ran, related⟩ := induction
      rw [ran, ok_bind, ok_bind]
      exact access_agrees related (small n state event ran atN)

end WordLog

end HelgrindPlus.Ukas
