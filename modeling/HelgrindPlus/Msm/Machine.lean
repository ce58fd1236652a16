import HelgrindPlus.LibHB.HbOps
import HelgrindPlus.Msm.Default
import HelgrindPlus.Zsm.AccessRules

/-!
# The default machine on shadow memory

The interface of `libhb.h` in the build without a separate memory state
machine: threads and synchronisation objects, the table of timestamps, and
compressed shadow memory to which the functions of `Msm.Default` are applied.
Every call of `record_race_info` is recorded.

`AbsMachine` is the same interface over a plain map of shadow values with
timestamps.  It works byte by byte, and so do its reports.
-/

namespace HelgrindPlus

open Outcome

/-- A call of `record_race_info`. -/
structure Race where
  thr : Nat
  addr : Nat
  szB : Nat
  isWrite : Bool
  deriving DecidableEq

/-- What `libhb_core.c` keeps besides shadow memory. -/
structure Core where
  hb : Hb
  races : List Race

abbrev Machine := Zsm SVal × Core

namespace Core

def withTab (core : Core) (tab : VtsTab) : Core :=
  { core with hb := { core.hb with tab := tab } }

/-- The functions `SVal__rcinc` and `SVal__rcdec`. -/
def rcSVal (core : Core) : RcEvent SVal → Except Abort Core
  | .inc (.C rmini wmini) => do
      let tab ← core.hb.tab.rcinc rmini
      let tab ← tab.rcinc wmini
      pure (core.withTab tab)
  | .dec (.C rmini wmini) => do
      let tab ← core.hb.tab.rcdec rmini
      let tab ← tab.rcdec wmini
      pure (core.withTab tab)
  | .inc _ | .dec _ => .ok core

end Core

namespace Machine

def init (root : Nat) : Except Abort Machine := do
  let hb ← Hb.init root
  pure (.init, ⟨hb, []⟩)

/-- The machine function for a direction. -/
def msmFor : Bool → VtsTab → SVal → Thr → Except Abort (VtsTab × SVal × Bool)
  | true => msmWrite
  | false => msmRead

/-- The functions `msm_read` and `msm_write`, with their effect on the
table and on the reports. -/
def msm (isWrite : Bool) (thr : Nat) (s : Machine) (svOld : SVal)
    (a szB : Nat) : Except Abort (Machine × SVal) := do
  let t ← s.2.hb.getThr thr
  let (tab, svNew, raced) ← msmFor isWrite s.2.hb.tab svOld t
  let races :=
    if raced then s.2.races ++ [⟨thr, a, szB, isWrite⟩] else s.2.races
  pure ((s.1, { s.2.withTab tab with races := races }), svNew)

/-- The functions `zsm_apply8___msm_read` to `zsm_apply64___msm_write`. -/
def apply (isWrite : Bool) (width : Width) (thr : Nat) (s : Machine)
    (a : Nat) : Except Abort Machine :=
  (applyWidths Core.rcSVal (msm isWrite thr)).access width s a

def applyRange (isWrite : Bool) (thr : Nat) (s : Machine) (a len : Nat) :
    Except Abort Machine :=
  HelgrindPlus.applyRange Core.rcSVal (msm isWrite thr) s a len

/-- The macro `LIBHB_READ_N`. -/
def readN (thr : Nat) (s : Machine) (a n : Nat) : Except Abort Machine :=
  applyRange false thr s a n

/-- The macro `LIBHB_WRITE_N`, which names `zsm_apply_range___msm_read`. -/
def writeN (thr : Nat) (s : Machine) (a n : Nat) : Except Abort Machine :=
  applyRange false thr s a n

def rangeNew (thr : Nat) (s : Machine) (a szB : Nat) :
    Except Abort Machine := do
  let t ← s.2.hb.getThr thr
  let (tab, sv) ← rangeNewSVal s.2.hb.tab t
  counting Core.rcSVal (s.1, s.2.withTab tab) (·.setRange a szB sv)

def rangeNoaccess (s : Machine) (a szB : Nat) : Except Abort Machine :=
  counting Core.rcSVal s (·.setRange a szB .A)

/-- The function `zsm_copy_range`, by way of `libhb_copy_shadow_state`. -/
def copyRange (s : Machine) (src dst len : Nat) : Except Abort Machine :=
  counting Core.rcSVal s (·.copyRange src dst len)

def flushCache (s : Machine) : Except Abort Machine :=
  counting Core.rcSVal s (·.flushCache)

/-- The function `vts_tab__do_GC`. -/
def doGC (s : Machine) : Except Abort Machine := do
  tlAssert (s.2.hb.tab.freelist = none)
  let s ← flushCache (s.1, s.2.withTab s.2.hb.tab.invalidateCaches)
  let tab ← s.2.hb.tab.collect
  pure (s.1, s.2.withTab tab)

/-- The part of `libhb_maybe_GC` that concerns timestamps; `due` is the test
of the size of the table. -/
def maybeGC (s : Machine) (due : Bool) : Except Abort Machine :=
  if s.2.hb.tab.freelist ≠ none then .ok s
  else if due = false then .ok s
  else doGC s

end Machine

inductive MachineOp where
  | hb (op : HbOp)
  | apply (isWrite : Bool) (width : Width) (thr a : Nat)
  | readN (thr a n : Nat)
  | writeN (thr a n : Nat)
  | rangeNew (thr a szB : Nat)
  | rangeNoaccess (a szB : Nat)
  | copyRange (src dst len : Nat)
  | maybeGC (due : Bool)
  deriving DecidableEq

namespace Machine

def perform (s : Machine) : MachineOp → Except Abort Machine
  | .hb op => do
      let hb ← s.2.hb.perform op
      pure (s.1, { s.2 with hb := hb })
  | .apply isWrite width thr a => apply isWrite width thr s a
  | .readN thr a n => readN thr s a n
  | .writeN thr a n => writeN thr s a n
  | .rangeNew thr a szB => rangeNew thr s a szB
  | .rangeNoaccess a szB => rangeNoaccess s a szB
  | .copyRange src dst len => copyRange s src dst len
  | .maybeGC due => maybeGC s due

def run (root : Nat) (ops : List MachineOp) : Except Abort Machine := do
  let s ← init root
  ops.foldlM perform s

end Machine

/-- The report for each byte of a range. -/
def Race.bytes (race : Race) : List Race :=
  (List.range race.szB).map fun i =>
    { race with addr := race.addr + i, szB := 1 }

structure AbsMachine where
  hb : AbsHb
  map : Nat → AbsSVal
  races : List Race

namespace AbsMachine

def init (root : Nat) : AbsMachine := ⟨.init root, fun _ => .A, []⟩

def msm : Bool → AbsSVal → Clocks → Except Abort (AbsSVal × Bool)
  | true => AbsSVal.write
  | false => AbsSVal.read

def accessByte (isWrite : Bool) (thr : Nat) (m : AbsMachine) (c : Nat) :
    Except Abort AbsMachine :=
  match m.hb.thrs thr with
  | none => .error .dangling
  | some clocks => do
      let (svNew, raced) ← msm isWrite (m.map c) clocks
      pure { m with
        map := Function.update m.map c svNew
        races := if raced then m.races ++ [⟨thr, c, 1, isWrite⟩]
          else m.races }

def access (isWrite : Bool) (thr : Nat) (m : AbsMachine) (a n : Nat) :
    Except Abort AbsMachine :=
  (List.range n).foldlM (fun m i => accessByte isWrite thr m (a + i)) m

def rangeNew (thr : Nat) (m : AbsMachine) (a szB : Nat) :
    Except Abort AbsMachine :=
  match m.hb.thrs thr with
  | none => .error .dangling
  | some clocks =>
      .ok { m with map := fill m.map a szB (.C clocks.vW clocks.vW) }

def copyRange (m : AbsMachine) (src dst len : Nat) :
    Except Abort AbsMachine := do
  tlAssert (len = 0 ∨ src + len ≤ dst ∨ dst + len ≤ src)
  pure { m with map := Zsm.copied m.map src dst len }

def perform (m : AbsMachine) : MachineOp → Except Abort AbsMachine
  | .hb op => do
      let hb ← m.hb.perform op
      pure { m with hb := hb }
  | .apply isWrite width thr a => access isWrite thr m a width.bytes
  | .readN thr a n | .writeN thr a n => access false thr m a n
  | .rangeNew thr a szB => rangeNew thr m a szB
  | .rangeNoaccess a szB => .ok { m with map := fill m.map a szB .A }
  | .copyRange src dst len => copyRange m src dst len
  | .maybeGC _ => .ok m

end AbsMachine

end HelgrindPlus
