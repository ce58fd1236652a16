import HelgrindPlus.LibHB.UkaSync
import HelgrindPlus.Msm.MachineRefinement
import HelgrindPlus.Msm.Ukal

/-!
# The long hybrid machine on shadow memory

The interface of `libhb.h` in the build with `libhb_ukal_core.h`: threads and
synchronisation objects with one clock each, and compressed shadow memory to
which the functions of `Msm.Ukal` are applied.

Which clocks go into a shadow value and which come out of it is written down
as the program runs.  Reports are left out.
-/

namespace HelgrindPlus.Ukal

open Outcome VtsTab

instance : ShadowVal (SVal Nat) where
  invalid := .Invalid
  noAccess := .NoAccess
  noAccess_ne_invalid := by decide

/-- What happens to the clocks of shadow values. -/
inductive Note where
  /-- A call of one of the functions `SVal__mk_*` with this clock. -/
  | made (sv : SVal Nat) (vtsid : Nat)
  /-- A clock that `SVal__rcinc`, `SVal__rcdec` or a read in a spin loop got
  from a value, and whether the id was in use. -/
  | taken (sv : SVal Nat) (vtsid : Nat) (inUse : Bool)
  deriving DecidableEq

structure Core where
  hb : UkaHb
  notes : List Note

abbrev Machine := Zsm (SVal Nat) × Core

namespace SVal

/-- The clock that was passed to the function that built the new value.  Only
`SVal__mk_ShM` builds a value that does not tell; a value of another kind that
is kept counts as built again. -/
def passed (svOld : SVal Nat) (tvid : Nat) (acc : Access) :
    SVal Nat → Option Nat
  | .ShM _ =>
      match svOld with
      | .ExclW vtsidOld | .ExclR vtsidOld | .ShR vtsidOld _ => some vtsidOld
      | .ShM _ => if acc.atomic then none else some tvid
      | _ => none
  | svNew => svNew.getVTS

end SVal

namespace Core

def withTab (core : Core) (tab : VtsTab) : Core :=
  { core with hb := { core.hb with tab := tab } }

def note (core : Core) (note : Note) : Core :=
  { core with notes := core.notes ++ [note] }

/-- The note of an id that is taken from a value. -/
def takes (core : Core) (sv : SVal Nat) (vtsid : Nat) : Core :=
  core.note (.taken sv vtsid (core.hb.tab.clock vtsid).isSome)

/-- The functions `SVal__rcinc` and `SVal__rcdec`. -/
def rcSVal (core : Core) (event : RcEvent (SVal Nat)) : Except Abort Core :=
  match event with
  | .inc sv =>
      match sv.getVTS with
      | none => .ok core
      | some vtsid => do
          let tab ← core.hb.tab.rcinc vtsid
          pure ((core.takes sv vtsid).withTab tab)
  | .dec sv =>
      match sv.getVTS with
      | none => .ok core
      | some vtsid => do
          let tab ← core.hb.tab.rcdec vtsid
          pure ((core.takes sv vtsid).withTab tab)

/-- The note that a read in a spin loop leaves. -/
def spinReads (core : Core) (acc : Access) (svOld : SVal Nat) : Core :=
  if acc.isWrite then core
  else if acc.spinReading then
    match svOld.getVTS with
    | none => core
    | some vtsid => core.takes svOld vtsid
  else core

def makes (core : Core) (svNew : SVal Nat) : Option Nat → Core
  | none => core
  | some vtsid => core.note (.made svNew vtsid)

end Core

namespace Machine

def init (root : Nat) : Except Abort Machine := do
  let hb ← UkaHb.init root
  pure (.init, ⟨hb, []⟩)

/-- The functions `msm_read` and `msm_write`. -/
def msm (acc : Access) (s : Machine) (svOld : SVal Nat) (_a _szB : Nat) :
    Except Abort (Machine × SVal Nat) := do
  let tvid ← s.2.hb.getThr acc.thr
  let (tab, out) ← machine.msm s.2.hb.tab svOld tvid acc
  let core := { s.2.spinReads acc svOld with
    hb := s.2.hb.exchange tab acc.thr out.vid }
  pure ((s.1, core.makes out.svNew (svOld.passed tvid acc out.svNew)),
    out.svNew)

/-- The functions `zsm_apply8___msm_read` to `zsm_apply64___msm_write`. -/
def apply (acc : Access) (width : Width) (s : Machine) (a : Nat) :
    Except Abort Machine :=
  (applyWidths Core.rcSVal (msm acc)).access width s a

def applyRange (acc : Access) (s : Machine) (a len : Nat) :
    Except Abort Machine :=
  HelgrindPlus.applyRange Core.rcSVal (msm acc) s a len

def rangeNew (s : Machine) (a szB : Nat) : Except Abort Machine :=
  counting Core.rcSVal s (·.setRange a szB .New)

def rangeNoaccess (s : Machine) (a szB : Nat) : Except Abort Machine :=
  counting Core.rcSVal s (·.setRange a szB .NoAccess)

/-- The function `zsm_copy_range`, by way of `libhb_copy_shadow_state`. -/
def copyRange (s : Machine) (src dst len : Nat) : Except Abort Machine :=
  counting Core.rcSVal s (·.copyRange src dst len)

def flushCache (s : Machine) : Except Abort Machine :=
  counting Core.rcSVal s (·.flushCache)

/-- The function `vts_tab__do_GC`. -/
def doGC (s : Machine) : Except Abort Machine := do
  tlAssert (s.2.hb.tab.freelist = none)
  let s ← flushCache (s.1, s.2.withTab s.2.hb.tab.invalidateCaches)
  let tab ← s.2.hb.tab.collect
  pure (s.1, s.2.withTab tab)

/-- The part of `libhb_maybe_GC` that concerns timestamps; `due` is the test
of the size of the table. -/
def maybeGC (s : Machine) (due : Bool) : Except Abort Machine :=
  if s.2.hb.tab.freelist ≠ none then .ok s
  else if due = false then .ok s
  else doGC s

end Machine

inductive Op where
  | hb (op : HbOp)
  | apply (acc : Access) (width : Width) (a : Nat)
  | applyRange (acc : Access) (a len : Nat)
  | rangeNew (a szB : Nat)
  | rangeNoaccess (a szB : Nat)
  | copyRange (src dst len : Nat)
  | maybeGC (due : Bool)
  deriving DecidableEq

namespace Machine

def perform (s : Machine) : Op → Except Abort Machine
  | .hb op => do
      let hb ← s.2.hb.perform op
      pure (s.1, { s.2 with hb := hb })
  | .apply acc width a => apply acc width s a
  | .applyRange acc a len => applyRange acc s a len
  | .rangeNew a szB => rangeNew s a szB
  | .rangeNoaccess a szB => rangeNoaccess s a szB
  | .copyRange src dst len => copyRange s src dst len
  | .maybeGC due => maybeGC s due

def run (root : Nat) (ops : List Op) : Except Abort Machine := do
  let s ← init root
  ops.foldlM perform s

end Machine

/-- Every clock that is taken from a value is the one that the value was built
from, and in use. -/
def Truthful (notes : List Note) : Prop :=
  ∀ before sv vtsid inUse rest,
    notes = before ++ .taken sv vtsid inUse :: rest →
      inUse = true ∧ .made sv vtsid ∈ before ∧
        ∀ other, .made sv other ∈ before → other = vtsid

/-- The clocks that a value holds. -/
def SVal.refs : SVal Nat → Multiset Nat
  | .SpinVar vts | .ShM2 vts _ | .ShR vts _ | .ExclRW vts | .ExclR vts
  | .ExclW vts => {vts}
  | .ShM _ | .Race | .New | .NoAccess | .Invalid => 0

def svalRefs (vals : Multiset (SVal Nat)) : Multiset Nat :=
  (vals.map SVal.refs).sum

/-- The references from threads, live objects and stored shadow values. -/
def Machine.refs (s : Machine) : Multiset Nat :=
  s.2.hb.refs + svalRefs s.1.store.vals

/-- The count of each id in use is the number of references to it. -/
def Machine.Counts (s : Machine) : Prop :=
  ∀ ii vts, s.2.hb.tab.clock ii = some vts →
    s.2.hb.tab.vtsTab[ii]?.map (·.rc) = some (s.refs.count ii)

/-- An access, at a time when the clock of its thread is `clock`, that enters
the state `ShM`. -/
def EntersShM (tab : VtsTab) (sv : SVal Nat) (clock : VTS) (acc : Access) :
    Prop :=
  acc.atomic = false ∧ (acc.isWrite = true ∨ acc.spinReading = false) ∧
    match sv with
    | .ExclW ii =>
        (∃ vts, tab.clock ii = some vts ∧ ¬ vts ≤ clock) ∧
          acc.getLockSet (!acc.isWrite) ≠ ∅
    | .ExclR ii =>
        (∃ vts, tab.clock ii = some vts ∧ ¬ vts ≤ clock) ∧
          acc.isWrite = true ∧ acc.locksetW ≠ ∅
    | .ShR _ lset => acc.isWrite = true ∧ lset ∩ acc.locksetW ≠ ∅
    | _ => False

/-- The clock with which a thread comes to the byte at `a + n`, when it
accesses memory from `a` on.  A spin variable that is read moves it; one that
is written only advances the thread's own component. -/
def Machine.reached (s : Machine) (acc : Access) (a : Nat) :
    Nat → Option VTS
  | 0 => do
      let vid ← s.2.hb.thrs.lookup acc.thr
      s.2.hb.tab.clock vid
  | n + 1 => do
      let clock ← s.reached acc a n
      match s.1.byte (a + n) with
      | .SpinVar ii =>
          if acc.isWrite then some clock
          else do
            let vts ← s.2.hb.tab.clock ii
            some (clock.join vts)
      | _ => some clock

/-- The access enters `ShM` at one of its bytes. -/
def Machine.LosesClock (s : Machine) (acc : Access) (a len : Nat) : Prop :=
  ∃ n < len, ∃ clock, s.reached acc a n = some clock ∧
    EntersShM s.2.hb.tab (s.1.byte (a + n)) clock acc

def Op.LosesClock (s : Machine) : Op → Prop
  | .apply acc width a => s.LosesClock acc a width.bytes
  | .applyRange acc a len => s.LosesClock acc a len
  | _ => False

/-- The operations on shadow memory, if the caller keeps to the interface. -/
def Op.Allowed (s : Machine) : Op → Prop
  | .hb _ => False
  | .apply acc _ _ | .applyRange acc _ _ =>
      s.2.hb.thrs.lookup acc.thr ≠ none
  | .copyRange src dst len => src + len ≤ dst ∨ dst + len ≤ src
  | .rangeNew _ _ | .rangeNoaccess _ _ | .maybeGC _ => True

end HelgrindPlus.Ukal
