import HelgrindPlus.Lsd.SyncLaws
import HelgrindPlus.Main.Locks

/-!
# Threads

The handlers in `hg_main.c` that bind the ids of the core to `Thread`s, from
the creation of a thread to its exit, and that order a thread that joins
another one after it.  An id is used again when its thread has exited, and the
`Thread` of that one stays.

The addresses of new `Thread`s and `Thr`s are part of the events, and so is the
number of locks that an exiting thread holds.
-/

namespace HelgrindPlus

open Outcome

def vgNThreads : Nat := 300

def vgInvalidThreadId : Nat := 0

/-- The fields of a `Thread` that bind it to the core and to libhb. -/
structure ThreadRec where
  hbthr : Nat
  coretid : Nat
  deriving DecidableEq

/-- The `Thread`s are never freed.  The map `thrOpaque` has the field `opaque`
of each `Thr`, where it is not `NULL`. -/
structure ThreadTab (σ : Type) where
  libhb : σ
  threads : AList (fun _ : Nat => ThreadRec)
  thrOpaque : AList (fun _ : Nat => Nat)
  mapThreads : AList (fun _ : Nat => Nat)
  mapPthreadToThread : AList (fun _ : Nat => Nat)

namespace ThreadTab

variable {σ κ : Type}

def isSaneThreadId (coretid : Nat) : Bool := decide (coretid < vgNThreads)

/-- The fields of a `Thread` that a pointer refers to. -/
def deref (tab : ThreadTab σ) (thr : Nat) : Except Abort ThreadRec :=
  match tab.threads.lookup thr with
  | some thread => .ok thread
  | none => .error .dangling

def setThread (tab : ThreadTab σ) (thr : Nat) (thread : ThreadRec) :
    ThreadTab σ :=
  { tab with threads := tab.threads.insert thr thread }

def mapThreadsMaybeLookup (tab : ThreadTab σ) (coretid : Nat) :
    Except Abort (Option Nat) := do
  tlAssert (isSaneThreadId coretid = true)
  pure (tab.mapThreads.lookup coretid)

/-- A lookup of which the caller asserts that it finds a thread. -/
def mapThreadsLookup (tab : ThreadTab σ) (coretid : Nat) :
    Except Abort Nat := do
  match ← tab.mapThreadsMaybeLookup coretid with
  | some thr => pure thr
  | none => .error .tlAssert

def mapThreadsMaybeReverseLookup (tab : ThreadTab σ) (thr : Nat) :
    Except Abort Nat := do
  let thread ← tab.deref thr
  tlAssert (tab.mapThreads.lookup vgInvalidThreadId = none)
  tlAssert (isSaneThreadId thread.coretid = true)
  pure thread.coretid

def mapThreadsDelete (tab : ThreadTab σ) (coretid : Nat) :
    Except Abort (ThreadTab σ) := do
  tlAssert (coretid ≠ 0)
  let _ ← tab.mapThreadsLookup coretid
  pure { tab with mapThreads := tab.mapThreads.erase coretid }

/-- A new thread without an id. -/
def mkThread (tab : ThreadTab σ) (hbthr fresh : Nat) :
    Except Abort (ThreadTab σ) :=
  match tab.threads.lookup fresh with
  | some _ => .error .dangling
  | none => .ok (tab.setThread fresh ⟨hbthr, vgInvalidThreadId⟩)

/-- The end of the constructor: a `Thr` gets its `Thread`. -/
def setThrOpaque (tab : ThreadTab σ) (hbthr thr : Nat) :
    Except Abort (ThreadTab σ) := do
  tlAssert (tab.thrOpaque.lookup hbthr = none)
  pure { tab with thrOpaque := tab.thrOpaque.insert hbthr thr }

/-- The thread is bound in the thread-map table. -/
def bindThread (tab : ThreadTab σ) (coretid thr : Nat) :
    Except Abort (ThreadTab σ) := do
  let thread ← tab.deref thr
  tlAssert (thread.coretid = vgInvalidThreadId)
  let tab := { tab with mapThreads := tab.mapThreads.insert coretid thr }
  pure (tab.setThread thr { thread with coretid := coretid })

def addThread (tab : ThreadTab σ) (hbthr coretid fresh : Nat) :
    Except Abort (ThreadTab σ) := do
  let tab ← tab.mkThread hbthr fresh
  let tab ← tab.setThrOpaque hbthr fresh
  tab.bindThread coretid fresh

variable (lib : LibHB σ κ)

def preThreadLlCreate (tab : ThreadTab σ) (parent child fresh freshHb : Nat) :
    Except Abort (ThreadTab σ) :=
  if parent = vgInvalidThreadId then .ok tab
  else do
    tlAssert (isSaneThreadId parent = true)
    tlAssert (isSaneThreadId child = true)
    tlAssert (parent ≠ child)
    let thrP ← tab.mapThreadsLookup parent
    let thrC ← tab.mapThreadsMaybeLookup child
    tlAssert (thrC = none)
    let threadP ← tab.deref thrP
    tlAssert (tab.thrOpaque.lookup threadP.hbthr = some thrP)
    let libhb ← lib.perform tab.libhb (.sync (.create threadP.hbthr freshHb))
    addThread { tab with libhb := libhb } freshHb child fresh

def stillHolds (nHeld : Nat) : String :=
  "Exiting thread still holds " ++ toString nHeld ++ " lock" ++
    if nHeld > 1 then "s" else ""

def preThreadLlExit (tab : ThreadTab σ) (quitTid nHeld : Nat) :
    Except Abort (ThreadTab σ × List HgError) := do
  let thrQ ← tab.mapThreadsLookup quitTid
  let errors :=
    if nHeld > 0 then [HgError.misc thrQ (stillHolds nHeld)] else []
  let threadQ ← tab.deref thrQ
  tlAssert (threadQ.coretid = quitTid)
  let tab := tab.setThread thrQ { threadQ with coretid := vgInvalidThreadId }
  let tab ← tab.mapThreadsDelete quitTid
  pure (tab, errors)

/-- The request `_VG_USERREQ__HG_SET_MY_PTHREAD_T`. -/
def setMyPthreadT (tab : ThreadTab σ) (tid pthread : Nat) :
    Except Abort (ThreadTab σ) := do
  let myThr ← tab.mapThreadsLookup tid
  pure { tab with
    mapPthreadToThread := tab.mapPthreadToThread.insert pthread myThr }

/-- The imaginary message from the quitter to the stayer. -/
def orderAfter (libhb : σ) (stayer quitter so : Nat) : Except Abort σ := do
  let libhb ← lib.soAlloc libhb so
  let libhb ← lib.perform libhb (.sync (.soSend quitter so true))
  let libhb ← lib.perform libhb (.sync (.soRecv stayer so true))
  lib.soDealloc libhb so

def pthreadJoinPost (tab : ThreadTab σ) (stayTid quitThr so : Nat) :
    Except Abort (ThreadTab σ) := do
  tlAssert (isSaneThreadId stayTid = true)
  let thrS ← tab.mapThreadsLookup stayTid
  tlAssert (thrS ≠ quitThr)
  let threadS ← tab.deref thrS
  let threadQ ← tab.deref quitThr
  tlAssert (threadS.hbthr ≠ threadQ.hbthr)
  tlAssert (tab.thrOpaque.lookup threadS.hbthr = some thrS)
  tlAssert (tab.thrOpaque.lookup threadQ.hbthr = some quitThr)
  let libhb ← orderAfter lib tab.libhb threadS.hbthr threadQ.hbthr so
  let tab := { tab with libhb := libhb }
  let tid ← tab.mapThreadsMaybeReverseLookup quitThr
  tlAssert (tid = vgInvalidThreadId)
  pure tab

/-- The request `_VG_USERREQ__HG_PTHREAD_JOIN_POST`. -/
def joinRequest (tab : ThreadTab σ) (tid pthread so : Nat) :
    Except Abort (ThreadTab σ) :=
  match tab.mapPthreadToThread.lookup pthread with
  | none => .error .tlAssert
  | some thrQ => tab.pthreadJoinPost lib tid thrQ so

/-- The part of `initialise_data_structures` about the root thread. -/
def init (hbthrRoot root : Nat) : Except Abort (ThreadTab σ) := do
  let libhb ← lib.init hbthrRoot
  addThread ⟨libhb, ∅, ∅, ∅, ∅⟩ hbthrRoot 1 root

end ThreadTab

/-- An event of a thread, or a call of libhb on behalf of another module. -/
inductive ThreadOp where
  | hb (op : HbOp)
  | llCreate (parent child fresh freshHb : Nat)
  | setMyPthreadT (tid pthread : Nat)
  | llExit (quitTid nHeld : Nat)
  | joinPost (tid pthread so : Nat)
  deriving DecidableEq

/-- The core never gives out the id 0. -/
def ThreadOp.hasValidChild : ThreadOp → Bool
  | .llCreate _ child _ _ => decide (child ≠ vgInvalidThreadId)
  | _ => true

namespace ThreadTab

variable {σ κ : Type} (lib : LibHB σ κ)

def perform (tab : ThreadTab σ) :
    ThreadOp → Except Abort (ThreadTab σ × List HgError)
  | .hb op => do
      let libhb ← lib.perform tab.libhb op
      pure ({ tab with libhb := libhb }, [])
  | .llCreate parent child fresh freshHb => do
      let tab ← tab.preThreadLlCreate lib parent child fresh freshHb
      pure (tab, [])
  | .setMyPthreadT tid pthread => do
      let tab ← tab.setMyPthreadT tid pthread
      pure (tab, [])
  | .llExit quitTid nHeld => tab.preThreadLlExit quitTid nHeld
  | .joinPost tid pthread so => do
      let tab ← tab.joinRequest lib tid pthread so
      pure (tab, [])

def performSilent (tab : ThreadTab σ) (op : ThreadOp) :
    Except Abort (ThreadTab σ) := do
  let (tab, _) ← tab.perform lib op
  pure tab

def run (hbthrRoot root : Nat) (ops : List ThreadOp) :
    Except Abort (ThreadTab σ) := do
  let tab ← init lib hbthrRoot root
  ops.foldlM (performSilent lib) tab

end ThreadTab

end HelgrindPlus
