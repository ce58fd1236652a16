import HelgrindPlus.Lib.Tagged
import HelgrindPlus.Lib.Totals
import HelgrindPlus.LibHB.VtsTab

/-!
# Reference-counted stack traces

The first part of the map of conflicting accesses in `libhb_core.c`: a hash
table of stack traces, each with the number of places that refer to it.  A
chain of the table is the list of its addresses.  The address of a new record
is chosen by the allocator, and is an argument here.
-/

namespace HelgrindPlus

open Outcome

abbrev UWord := BitVec 64

def nRcecTab : Nat := 196613

structure RCEC where
  rc : Nat
  rcX : Nat
  frames : Vector UWord (1 + 8)
  deriving DecidableEq

/-- The index of the chain for a stack trace, whose first word is a hash. -/
def hent (frames : Vector UWord (1 + 8)) : Nat :=
  frames[0].toNat % nRcecTab

def cmpWords : List UWord → List UWord → Int
  | word1 :: rest1, word2 :: rest2 =>
      if word1 < word2 then -1
      else if word1 > word2 then 1
      else cmpWords rest1 rest2
  | _, _ => 0

def RCEC.cmpByFrames (ec1 ec2 : RCEC) : Int :=
  cmpWords ec1.frames.toList ec2.frames.toList

structure Contexts where
  heap : AList (fun _ : UWord => RCEC)
  contextTab : Nat → List UWord
  ctxtTabCurr : Nat
  ctxtTabMax : Nat

namespace Contexts

def empty : Contexts := ⟨∅, fun _ => [], 0, 0⟩

/-- A record that was freed has lost its magic number. -/
def get (ctxts : Contexts) (ec : UWord) : Except Abort RCEC :=
  match ctxts.heap.lookup ec with
  | some record => .ok record
  | none => .error .tlAssert

def set (ctxts : Contexts) (ec : UWord) (record : RCEC) : Contexts :=
  { ctxts with heap := ctxts.heap.insert ec record }

def setChain (ctxts : Contexts) (i : Nat) (chain : List UWord) : Contexts :=
  { ctxts with contextTab := Function.update ctxts.contextTab i chain }

def rcdec (ctxts : Contexts) (ec : UWord) : Except Abort Contexts := do
  let record ← ctxts.get ec
  tlAssert (record.rc > 0)
  pure (ctxts.set ec { record with rc := record.rc - 1 })

def rcinc (ctxts : Contexts) (ec : UWord) : Except Abort Contexts := do
  let record ← ctxts.get ec
  pure (ctxts.set ec { record with rc := record.rc + 1 })

/-- The loop that looks for `ec` and for what stands before it, and then swaps
the two. -/
def swapForward (ec : UWord) : List UWord → Option (List UWord)
  | ec1 :: ec0 :: rest =>
      if ec0 = ec then some (ec0 :: ec1 :: rest)
      else (swapForward ec (ec0 :: rest)).map (ec1 :: ·)
  | _ => none

def moveRCECOneStepForward (chain : List UWord) (ec : UWord) :
    Except Abort (List UWord) := do
  tlAssert (chain.head? ≠ some ec)
  tlAssert (ec ≠ 0)
  match swapForward ec chain with
  | some chain => pure chain
  | none => .error .tlAssert

def findInChain (ctxts : Contexts) (sample : RCEC) :
    List UWord → Except Abort (Option UWord)
  | [] => .ok none
  | copy :: rest => do
      let record ← ctxts.get copy
      if record.cmpByFrames sample = 0 then pure (some copy)
      else ctxts.findInChain sample rest

def findOrAdd (ctxts : Contexts) (sample : RCEC) (fresh : UWord) :
    Except Abort (Contexts × UWord) := do
  tlAssert (sample.rc = 0)
  let chain := ctxts.contextTab (hent sample.frames)
  match ← ctxts.findInChain sample chain with
  | some copy =>
      if chain.head? ≠ some copy then do
        let chain ← moveRCECOneStepForward chain copy
        pure (ctxts.setChain (hent sample.frames) chain, copy)
      else pure (ctxts, copy)
  | none =>
      if ctxts.heap.lookup fresh ≠ none then .error .dangling
      else
        let curr := ctxts.ctxtTabCurr + 1
        pure ({ (ctxts.set fresh sample).setChain (hent sample.frames)
            (fresh :: chain) with
          ctxtTabCurr := curr
          ctxtTabMax := if curr > ctxts.ctxtTabMax then curr
            else ctxts.ctxtTabMax }, fresh)

def rolw (word : UWord) (n : Nat) : UWord :=
  (word <<< n) ||| (word >>> (64 - n))

def hashOf (trace : Vector UWord 8) : UWord :=
  trace.toList.foldl (fun hash frame => rolw (hash ^^^ frame) 19) 0

/-- The function `get_RCEC`, for the stack trace of the thread. -/
def getRCEC (ctxts : Contexts) (trace : Vector UWord 8) (fresh : UWord) :
    Except Abort (Contexts × UWord) :=
  ctxts.findOrAdd ⟨0, 0, #v[hashOf trace] ++ trace⟩ fresh

/-- The loop over one chain that drops what nobody refers to. -/
def sweepList (ctxts : Contexts) :
    List UWord → Except Abort (Contexts × List UWord)
  | [] => .ok (ctxts, [])
  | p :: rest => do
      let record ← ctxts.get p
      if record.rc = 0 then do
        tlAssert (ctxts.ctxtTabCurr > 0)
        { ctxts with
          heap := ctxts.heap.erase p
          ctxtTabCurr := ctxts.ctxtTabCurr - 1 }.sweepList rest
      else do
        let (ctxts, kept) ← ctxts.sweepList rest
        pure (ctxts, p :: kept)

def sweepChain (ctxts : Contexts) (i : Nat) : Except Abort Contexts := do
  let (ctxts, kept) ← ctxts.sweepList (ctxts.contextTab i)
  pure (ctxts.setChain i kept)

def sweep (ctxts : Contexts) : Except Abort Contexts :=
  (List.range nRcecTab).foldlM sweepChain ctxts

/-- The records of the heap are the elements of the chains, each in the chain
of its hash, and no stack trace has two records. -/
structure Wf (ctxts : Contexts) : Prop where
  aligned : ∀ p ec, ctxts.heap.lookup p = some ec → p &&& 3 = 0 ∧ p ≠ 0
  chained : ∀ p ec, ctxts.heap.lookup p = some ec →
    p ∈ ctxts.contextTab (hent ec.frames)
  listed : ∀ i p, p ∈ ctxts.contextTab i →
    ∃ ec, ctxts.heap.lookup p = some ec ∧ hent ec.frames = i
  nodup : ∀ i, (ctxts.contextTab i).Nodup
  distinct : ∀ p q ec ec', ctxts.heap.lookup p = some ec →
    ctxts.heap.lookup q = some ec' → ec.frames = ec'.frames → p = q
  curr : ctxts.ctxtTabCurr = ctxts.heap.entries.length
  max : ctxts.ctxtTabCurr ≤ ctxts.ctxtTabMax

/-- Every count is the number of references that are held; the null pointer
may be among them. -/
structure Counts (ctxts : Contexts) (held : Multiset UWord) : Prop where
  exact : ∀ p ec, ctxts.heap.lookup p = some ec → ec.rc = held.count p
  bound : ∀ p ∈ held, p = 0 ∨ ctxts.heap.lookup p ≠ none

section Table

variable {ctxts ctxts' : Contexts} {held : Multiset UWord}
  {p fresh : UWord} {ec ec' sample : RCEC} {chain : List UWord}

theorem Wf.empty : Wf empty where
  aligned _ _ found := by cases found
  chained _ _ found := by cases found
  listed _ _ member := by cases member
  nodup _ := List.nodup_nil
  distinct _ _ _ _ found := by cases found
  curr := rfl
  max := le_rfl

theorem get_of (found : ctxts.heap.lookup p = some ec) :
    ctxts.get p = .ok ec := by
  unfold get
  rw [found]

theorem lookup_set (q : UWord) : (ctxts.set p ec).heap.lookup q =
    if q = p then some ec else ctxts.heap.lookup q := by
  by_cases same : q = p
  · subst same
    simp [set]
  · simp [set, same]

/-- Counters may change at any time. -/
theorem Wf.set (wf : Wf ctxts) (found : ctxts.heap.lookup p = some ec)
    (same : ec'.frames = ec.frames) : Wf (ctxts.set p ec') := by
  have back : ∀ q record, (ctxts.set p ec').heap.lookup q = some record →
      ∃ old, ctxts.heap.lookup q = some old ∧
        old.frames = record.frames := by
    intro q record isRecord
    rw [lookup_set] at isRecord
    split at isRecord
    · rename_i here
      subst here
      cases isRecord
      exact ⟨ec, found, same.symm⟩
    · exact ⟨record, isRecord, rfl⟩
  constructor
  · intro q record isRecord
    obtain ⟨old, isOld, -⟩ := back q record isRecord
    exact wf.aligned q old isOld
  · intro q record isRecord
    obtain ⟨old, isOld, frames⟩ := back q record isRecord
    rw [← frames]
    exact wf.chained q old isOld
  · intro i q member
    obtain ⟨old, isOld, isHent⟩ := wf.listed i q member
    rw [lookup_set]
    split
    · rename_i here
      subst here
      rw [found] at isOld
      cases isOld
      exact ⟨ec', rfl, same ▸ isHent⟩
    · exact ⟨old, isOld, isHent⟩
  · exact wf.nodup
  · intro q r record record' isRecord isRecord' frames
    obtain ⟨old, isOld, sameOld⟩ := back q record isRecord
    obtain ⟨old', isOld', sameOld'⟩ := back r record' isRecord'
    exact wf.distinct q r old old' isOld isOld'
      (sameOld.trans (frames.trans sameOld'.symm))
  · have length := AList.length_insert_of_bound
      (show ctxts.heap.lookup p ≠ none by simp [found]) ec'
    exact wf.curr.trans length.symm
  · exact wf.max

theorem Counts.rcinc (wf : Wf ctxts) (counts : Counts ctxts held)
    (found : ctxts.heap.lookup p = some ec) :
    Returns (ctxts.rcinc p) (fun ctxts' => Wf ctxts' ∧
      Counts ctxts' (p ::ₘ held)) := by
  unfold Contexts.rcinc
  rw [get_of found, ok_bind]
  refine .pure ⟨wf.set found rfl, ?_, ?_⟩
  · intro q record isRecord
    rw [lookup_set] at isRecord
    split at isRecord
    · rename_i here
      subst here
      cases isRecord
      rw [Multiset.count_cons_self, ← counts.exact q ec found]
    · rename_i apart
      rw [Multiset.count_cons_of_ne apart]
      exact counts.exact q record isRecord
  · intro q member
    rw [lookup_set]
    rcases Multiset.mem_cons.mp member with rfl | old
    · right
      simp
    · rcases counts.bound q old with null | bound
      · exact .inl null
      · right
        split
        · simp
        · exact bound

theorem Counts.rcdec (wf : Wf ctxts) (counts : Counts ctxts (p ::ₘ held))
    (nonnull : p ≠ 0) :
    Returns (ctxts.rcdec p) (fun ctxts' => Wf ctxts' ∧
      Counts ctxts' held) := by
  have bound : ctxts.heap.lookup p ≠ none := by
    rcases counts.bound p (Multiset.mem_cons_self p held) with null | bound
    · exact absurd null nonnull
    · exact bound
  obtain ⟨ec, found⟩ := Option.ne_none_iff_exists'.mp bound
  have count := counts.exact p ec found
  rw [Multiset.count_cons_self] at count
  unfold Contexts.rcdec
  have positive : ec.rc > 0 := by omega
  rw [get_of found, ok_bind, tlAssert_of positive, ok_bind]
  refine .pure ⟨wf.set found rfl, ?_, ?_⟩
  · intro q record isRecord
    rw [lookup_set] at isRecord
    split at isRecord
    · rename_i here
      subst here
      cases isRecord
      exact Nat.sub_eq_of_eq_add count
    · rename_i apart
      rw [← Multiset.count_cons_of_ne apart]
      exact counts.exact q record isRecord
  · intro q member
    rw [lookup_set]
    rcases counts.bound q (Multiset.mem_cons_of_mem member) with null | known
    · exact .inl null
    · right
      split
      · simp
      · exact known

theorem Counts.drop_null (wf : Wf ctxts) (counts : Counts ctxts (0 ::ₘ held)) :
    Counts ctxts held := by
  constructor
  · intro q ec found
    rw [counts.exact q ec found,
      Multiset.count_cons_of_ne (wf.aligned q ec found).2]
  · intro q member
    exact counts.bound q (Multiset.mem_cons_of_mem member)

/-- The null pointer may be added, as no record is there. -/
theorem Counts.add_nulls (wf : Wf ctxts) (counts : Counts ctxts held)
    (n : Nat) : Counts ctxts (held + Multiset.replicate n 0) := by
  constructor
  · intro q ec found
    have none : (Multiset.replicate n (0 : UWord)).count q = 0 := by
      rw [Multiset.count_replicate, if_neg (wf.aligned q ec found).2.symm]
    rw [counts.exact q ec found, Multiset.count_add, none, add_zero]
  · intro q member
    rcases Multiset.mem_add.mp member with old | null
    · exact counts.bound q old
    · exact .inl (Multiset.eq_of_mem_replicate null)

private theorem cmpWords_eq_zero_iff {words words' : List UWord}
    (same : words.length = words'.length) :
    cmpWords words words' = 0 ↔ words = words' := by
  induction words generalizing words' with
  | nil =>
      rw [List.eq_nil_of_length_eq_zero same.symm]
      simp [cmpWords]
  | cons word words induction =>
      cases words' with
      | nil => cases same
      | cons word' words' =>
          have rest := induction (Nat.succ.inj same)
          simp only [cmpWords]
          split
          · rename_i below
            have apart : word ≠ word' := by bv_omega
            simp [apart]
          · rename_i notBelow
            split
            · rename_i above
              have apart : word ≠ word' := by bv_omega
              simp [apart]
            · rename_i notAbove
              have equal : word = word' := by bv_omega
              simp [equal, rest]

private theorem cmpByFrames_eq_zero_iff :
    ec.cmpByFrames ec' = 0 ↔ ec.frames = ec'.frames := by
  unfold RCEC.cmpByFrames
  rw [cmpWords_eq_zero_iff (by simp)]
  exact Vector.toList_inj

private theorem findInChain_returns
    (known : ∀ p ∈ chain, ctxts.heap.lookup p ≠ none) :
    Returns (ctxts.findInChain sample chain) (fun result =>
      match result with
      | some p => p ∈ chain ∧ ∃ ec, ctxts.heap.lookup p = some ec ∧
          ec.frames = sample.frames
      | none => ∀ p ∈ chain, ∀ ec, ctxts.heap.lookup p = some ec →
          ec.frames ≠ sample.frames) := by
  induction chain with
  | nil => exact .ok (by simp)
  | cons p chain induction =>
      obtain ⟨ec, found⟩ :=
        Option.ne_none_iff_exists'.mp (known p (by simp))
      rw [findInChain, get_of found, ok_bind]
      split
      · rename_i equal
        exact .pure ⟨by simp, ec, found, cmpByFrames_eq_zero_iff.mp equal⟩
      · rename_i apart
        apply (induction fun q member => known q (by simp [member])).mono
        intro result spec
        cases result with
        | some q => exact ⟨by simp [spec.1], spec.2⟩
        | none =>
            intro q member record isRecord
            rcases List.mem_cons.mp member with rfl | later
            · rw [found] at isRecord
              cases isRecord
              exact fun equal => apart (cmpByFrames_eq_zero_iff.mpr equal)
            · exact spec q later record isRecord

theorem swapForward_perm (member : p ∈ chain) (later : chain.head? ≠ some p) :
    ∃ chain', swapForward p chain = some chain' ∧ chain'.Perm chain := by
  induction chain with
  | nil => cases member
  | cons ec1 chain induction =>
      have notFirst : p ≠ ec1 := by
        rintro rfl
        exact later rfl
      have isLater : p ∈ chain := by simpa [notFirst] using member
      cases chain with
      | nil => cases isLater
      | cons ec0 rest =>
          simp only [swapForward]
          split
          · exact ⟨_, rfl, .swap _ _ _⟩
          · rename_i apart
            obtain ⟨chain', moved, perm⟩ := induction isLater (by
              simpa using apart)
            rw [moved]
            exact ⟨ec1 :: chain', rfl, perm.cons ec1⟩

/-- The order in a chain does not matter. -/
theorem Wf.setChain (wf : Wf ctxts) {i : Nat}
    (perm : chain.Perm (ctxts.contextTab i)) : Wf (ctxts.setChain i chain) := by
  have same : ∀ j q, q ∈ (ctxts.setChain i chain).contextTab j ↔
      q ∈ ctxts.contextTab j := by
    intro j q
    by_cases here : j = i
    · subst here
      simpa [Contexts.setChain] using perm.mem_iff
    · simp [Contexts.setChain, here]
  constructor
  · exact wf.aligned
  · intro q record isRecord
    rw [same]
    exact wf.chained q record isRecord
  · intro j q member
    rw [same] at member
    exact wf.listed j q member
  · intro j
    by_cases here : j = i
    · subst here
      simpa [Contexts.setChain] using perm.nodup_iff.mpr (wf.nodup j)
    · simpa [Contexts.setChain, here] using wf.nodup j
  · exact wf.distinct
  · exact wf.curr
  · exact wf.max

theorem Wf.add (wf : Wf ctxts) (aligned : fresh &&& 3 = 0 ∧ fresh ≠ 0)
    (unused : ctxts.heap.lookup fresh = none)
    (missing : ∀ p ∈ ctxts.contextTab (hent sample.frames),
      ∀ ec, ctxts.heap.lookup p = some ec → ec.frames ≠ sample.frames)
    {most : Nat} (enough : ctxts.ctxtTabCurr + 1 ≤ most) :
    Wf { (ctxts.set fresh sample).setChain (hent sample.frames)
        (fresh :: ctxts.contextTab (hent sample.frames)) with
      ctxtTabCurr := ctxts.ctxtTabCurr + 1
      ctxtTabMax := most } := by
  have notListed : ∀ i, fresh ∉ ctxts.contextTab i := by
    intro i member
    obtain ⟨ec, found, -⟩ := wf.listed i fresh member
    rw [unused] at found
    cases found
  have absent : ∀ p ec, ctxts.heap.lookup p = some ec →
      ec.frames ≠ sample.frames := by
    intro p ec found frames
    have member := wf.chained p ec found
    rw [frames] at member
    exact missing p member ec found frames
  have lookup : ∀ q, (ctxts.set fresh sample).heap.lookup q =
      if q = fresh then some sample else ctxts.heap.lookup q := lookup_set
  constructor
  · intro q record isRecord
    simp only [Contexts.setChain, lookup] at isRecord
    split at isRecord
    · rename_i here
      subst here
      exact aligned
    · exact wf.aligned q record isRecord
  · intro q record isRecord
    simp only [Contexts.setChain, lookup] at isRecord ⊢
    split at isRecord
    · cases isRecord
      rename_i here
      simp [here]
    · have member := wf.chained q record isRecord
      by_cases here : hent record.frames = hent sample.frames
      · rw [here] at member ⊢
        simp [member]
      · simpa [here, Contexts.set] using member
  · intro i q member
    simp only [Contexts.setChain, lookup] at member ⊢
    by_cases here : i = hent sample.frames
    · subst here
      rw [Function.update_self] at member
      rcases List.mem_cons.mp member with rfl | old
      · exact ⟨sample, by simp, rfl⟩
      · obtain ⟨ec, found, isHent⟩ := wf.listed _ q old
        have apart : q ≠ fresh := fun same => notListed _ (same ▸ old)
        exact ⟨ec, by simpa [apart] using found, isHent⟩
    · rw [Function.update_of_ne here] at member
      have old : q ∈ ctxts.contextTab i := member
      obtain ⟨ec, found, isHent⟩ := wf.listed i q old
      have apart : q ≠ fresh := fun same => notListed i (same ▸ old)
      exact ⟨ec, by simpa [apart] using found, isHent⟩
  · intro i
    by_cases here : i = hent sample.frames
    · subst here
      simpa [Contexts.setChain] using ⟨notListed _, wf.nodup _⟩
    · simpa [Contexts.setChain, here, Contexts.set] using wf.nodup i
  · intro q r record record' isRecord isRecord' frames
    simp only [Contexts.setChain, lookup] at isRecord isRecord'
    split at isRecord
    · rename_i here
      subst here
      cases isRecord
      split at isRecord'
      · rename_i here'
        exact here'.symm
      · exact absurd frames.symm (absent r record' isRecord')
    · split at isRecord'
      · cases isRecord'
        exact absurd frames (absent q record isRecord)
      · exact wf.distinct q r record record' isRecord isRecord' frames
  · change ctxts.ctxtTabCurr + 1 =
      (ctxts.heap.insert fresh sample).entries.length
    rw [AList.length_insert_of_notBound unused, wf.curr]
  · exact enough

/-- The record for a stack trace, which is new if there was none. -/
theorem findOrAdd_returns (wf : Wf ctxts) (counts : Counts ctxts held)
    (aligned : fresh &&& 3 = 0 ∧ fresh ≠ 0)
    (unused : ctxts.heap.lookup fresh = none) (zero : sample.rc = 0) :
    Returns (ctxts.findOrAdd sample fresh) (fun out =>
      Wf out.1 ∧ Counts out.1 held ∧
      ∃ ec, out.1.heap.lookup out.2 = some ec ∧
        ec.frames = sample.frames) := by
  unfold findOrAdd
  rw [tlAssert_of zero, ok_bind]
  have known : ∀ p ∈ ctxts.contextTab (hent sample.frames),
      ctxts.heap.lookup p ≠ none := by
    intro p member
    obtain ⟨ec, found, -⟩ := wf.listed _ p member
    simp [found]
  apply (findInChain_returns known).bind
  intro result spec
  cases result with
  | some copy =>
      obtain ⟨member, ec, found, frames⟩ := spec
      dsimp only
      split
      · rename_i later
        obtain ⟨chain', moved, perm⟩ := swapForward_perm member later
        have nonnull := (wf.aligned copy ec found).2
        unfold moveRCECOneStepForward
        rw [tlAssert_of later, ok_bind, tlAssert_of nonnull, ok_bind, moved]
        exact .pure ⟨wf.setChain perm, ⟨counts.exact, counts.bound⟩, ec, found,
          frames⟩
      · exact .pure ⟨wf, counts, ec, found, frames⟩
  | none =>
      dsimp only
      rw [if_neg (not_not.mpr unused)]
      refine .pure ⟨wf.add aligned unused spec ?_, ⟨?_, ?_⟩, sample, ?_, rfl⟩
      · split <;> omega
      · intro q record isRecord
        simp only [setChain, lookup_set] at isRecord
        split at isRecord
        · rename_i here
          subst here
          cases isRecord
          rw [zero, eq_comm, Multiset.count_eq_zero]
          intro member
          rcases counts.bound q member with null | bound
          · exact aligned.2 null
          · exact bound unused
        · exact counts.exact q record isRecord
      · intro q member
        simp only [setChain, lookup_set]
        rcases counts.bound q member with null | bound
        · exact .inl null
        · right
          split
          · simp
          · exact bound
      · simp only [setChain, lookup_set, if_true]

/-- A record that nobody refers to. -/
def dead (ctxts : Contexts) (p : UWord) : Bool :=
  (ctxts.heap.lookup p).any (·.rc = 0)

structure Swept (ctxts : Contexts) (chain : List UWord)
    (out : Contexts × List UWord) : Prop where
  kept : out.2 = chain.filter (fun p => !ctxts.dead p)
  lookup : ∀ q, out.1.heap.lookup q =
    if q ∈ chain ∧ ctxts.dead q = true then none else ctxts.heap.lookup q
  curr : out.1.ctxtTabCurr = out.1.heap.entries.length
  fewer : out.1.ctxtTabCurr ≤ ctxts.ctxtTabCurr
  tab : out.1.contextTab = ctxts.contextTab
  max : out.1.ctxtTabMax = ctxts.ctxtTabMax

theorem Swept.keep {out : Contexts × List UWord}
    (swept : Swept ctxts chain out) (alive : ctxts.dead p = false) :
    Swept ctxts (p :: chain) (out.1, p :: out.2) where
  kept := by simp [swept.kept, alive]
  lookup q := by
    rw [swept.lookup q]
    by_cases same : q = p
    · subst same
      simp [alive]
    · simp [same]
  curr := swept.curr
  fewer := swept.fewer
  tab := swept.tab
  max := swept.max

theorem Swept.drop {out : Contexts × List UWord} {curr : Nat}
    (swept : Swept { ctxts with
      heap := ctxts.heap.erase p, ctxtTabCurr := curr } chain out)
    (isDead : ctxts.dead p = true) (once : p ∉ chain)
    (fewer : curr ≤ ctxts.ctxtTabCurr) : Swept ctxts (p :: chain) out := by
  have same : ∀ q, q ≠ p → ({ ctxts with
      heap := ctxts.heap.erase p, ctxtTabCurr := curr } : Contexts).dead q =
        ctxts.dead q := by
    intro q apart
    simp [dead, apart]
  constructor
  · rw [swept.kept, List.filter_cons_of_neg (by simp [isDead])]
    apply List.filter_congr
    intro q member
    rw [same q fun here => once (here ▸ member)]
  · intro q
    rw [swept.lookup q]
    by_cases here : q = p
    · subst here
      simp [once, isDead]
    · rw [same q here]
      simp [here]
  · exact swept.curr
  · exact swept.fewer.trans fewer
  · exact swept.tab
  · exact swept.max

theorem sweepList_returns (known : ∀ p ∈ chain, ctxts.heap.lookup p ≠ none)
    (nodup : chain.Nodup)
    (curr : ctxts.ctxtTabCurr = ctxts.heap.entries.length) :
    Returns (ctxts.sweepList chain) (Swept ctxts chain) := by
  induction chain generalizing ctxts with
  | nil => exact .ok ⟨rfl, fun _ => by simp, curr, le_rfl, rfl, rfl⟩
  | cons p chain induction =>
      obtain ⟨once, nodup⟩ := List.nodup_cons.mp nodup
      obtain ⟨ec, found⟩ :=
        Option.ne_none_iff_exists'.mp (known p (by simp))
      rw [sweepList, get_of found, ok_bind]
      split
      · rename_i zero
        have isDead : ctxts.dead p = true := by simp [dead, found, zero]
        have length := AList.length_erase_of_bound (known p (by simp))
        have positive : ctxts.ctxtTabCurr > 0 := by omega
        rw [tlAssert_of positive, ok_bind]
        refine (@induction { ctxts with
          heap := ctxts.heap.erase p
          ctxtTabCurr := ctxts.ctxtTabCurr - 1 } ?_ nodup ?_).mono ?_
        · intro q member
          have apart : q ≠ p := fun here => once (here ▸ member)
          simpa [apart] using known q (by simp [member])
        · change ctxts.ctxtTabCurr - 1 = (ctxts.heap.erase p).entries.length
          omega
        · intro out swept
          exact swept.drop isDead once (Nat.sub_le _ _)
      · rename_i positive
        have alive : ctxts.dead p = false := by simp [dead, found, positive]
        apply (induction (fun q member => known q (by simp [member])) nodup
          curr).bind
        intro out swept
        exact .pure (swept.keep alive)

/-- After the loop over a chain its records are all in use. -/
theorem sweepChain_returns (wf : Wf ctxts) (counts : Counts ctxts held)
    (i : Nat) :
    Returns (ctxts.sweepChain i) (fun ctxts' => Wf ctxts' ∧
      Counts ctxts' held ∧
      ∀ p ec, ctxts'.heap.lookup p = some ec →
        ctxts.heap.lookup p = some ec ∧
        (hent ec.frames = i → ec.rc ≠ 0)) := by
  have known : ∀ p ∈ ctxts.contextTab i, ctxts.heap.lookup p ≠ none := by
    intro p member
    obtain ⟨ec, found, -⟩ := wf.listed i p member
    simp [found]
  unfold sweepChain
  apply (sweepList_returns known (wf.nodup i) wf.curr).bind
  intro out swept
  apply Returns.pure
  -- what is left was there before, and is not dead if it is in the chain
  have back : ∀ p ec, out.1.heap.lookup p = some ec →
      ctxts.heap.lookup p = some ec ∧
      (p ∈ ctxts.contextTab i → ctxts.dead p = false) := by
    intro p ec found
    rw [swept.lookup p] at found
    split at found
    · cases found
    · rename_i stays
      exact ⟨found, fun member => by
        simpa using fun isDead => stays ⟨member, isDead⟩⟩
  have chains : ∀ j q, q ∈ (out.1.setChain i out.2).contextTab j ↔
      q ∈ ctxts.contextTab j ∧ (j = i → ctxts.dead q = false) := by
    intro j q
    by_cases here : j = i
    · subst here
      simp [setChain, swept.kept]
    · simp [setChain, here, swept.tab]
  refine ⟨?_, ⟨?_, ?_⟩, ?_⟩
  · constructor
    · intro p ec found
      exact wf.aligned p ec (back p ec found).1
    · intro p ec found
      obtain ⟨isOld, alive⟩ := back p ec found
      have member := wf.chained p ec isOld
      rw [chains]
      exact ⟨member, fun here => alive (here ▸ member)⟩
    · intro j p member
      obtain ⟨isOld, alive⟩ := (chains j p).mp member
      obtain ⟨ec, found, isHent⟩ := wf.listed j p isOld
      refine ⟨ec, ?_, isHent⟩
      change out.1.heap.lookup p = some ec
      rw [swept.lookup p, if_neg, found]
      rintro ⟨inChain, isDead⟩
      obtain ⟨ec', found', isHent'⟩ := wf.listed i p inChain
      rw [found] at found'
      cases found'
      rw [alive (isHent.symm.trans isHent')] at isDead
      cases isDead
    · intro j
      by_cases here : j = i
      · subst here
        simpa [setChain, swept.kept] using (wf.nodup j).filter _
      · simpa [setChain, here, swept.tab] using wf.nodup j
    · intro p q ec ec' found found' frames
      exact wf.distinct p q ec ec' (back p ec found).1 (back q ec' found').1
        frames
    · exact swept.curr
    · exact swept.fewer.trans (wf.max.trans_eq swept.max.symm)
  · intro p ec found
    exact counts.exact p ec (back p ec found).1
  · intro p member
    rcases counts.bound p member with null | bound
    · exact .inl null
    · right
      obtain ⟨ec, found⟩ := Option.ne_none_iff_exists'.mp bound
      have positive : ec.rc ≠ 0 := by
        rw [counts.exact p ec found]
        exact Multiset.count_ne_zero.mpr member
      change out.1.heap.lookup p ≠ none
      rw [swept.lookup p, if_neg]
      · exact bound
      · simp [dead, found, positive]
  · intro p ec found
    obtain ⟨isOld, alive⟩ := back p ec found
    refine ⟨isOld, fun here => ?_⟩
    have stays := alive (here ▸ wf.chained p ec isOld)
    simpa [dead, isOld] using stays

theorem sweep_returns (wf : Wf ctxts) (counts : Counts ctxts held) :
    Returns ctxts.sweep (fun ctxts' => Wf ctxts' ∧ Counts ctxts' held ∧
      ∀ p ec, ctxts'.heap.lookup p = some ec → ec.rc ≠ 0) := by
  have swept : Returns ctxts.sweep (fun ctxts' => Wf ctxts' ∧
      Counts ctxts' held ∧ ∀ p ec, ctxts'.heap.lookup p = some ec →
        hent ec.frames < (List.range nRcecTab).length → ec.rc ≠ 0) := by
    apply @Returns.foldlM _ _ _ _ (fun n ctxts' => Wf ctxts' ∧
      Counts ctxts' held ∧ ∀ p ec, ctxts'.heap.lookup p = some ec →
        hent ec.frames < n → ec.rc ≠ 0)
    · intro n before i atN holds
      obtain ⟨wf, counts, done⟩ := holds
      obtain rfl : i = n := by
        obtain ⟨bound, isItem⟩ := List.getElem?_eq_some_iff.mp atN
        rw [← isItem, List.getElem_range]
      apply (sweepChain_returns wf counts i).mono
      intro after spec
      obtain ⟨wf', counts', back⟩ := spec
      refine ⟨wf', counts', ?_⟩
      intro p ec found below
      obtain ⟨isOld, inUse⟩ := back p ec found
      rcases Nat.lt_succ_iff_lt_or_eq.mp below with earlier | here
      · exact done p ec isOld earlier
      · exact inUse here
    · exact ⟨wf, counts, fun _ _ _ impossible => by omega⟩
  apply swept.mono
  intro ctxts' spec
  refine ⟨spec.1, spec.2.1, fun p ec found => spec.2.2 p ec found ?_⟩
  rw [List.length_range]
  exact Nat.mod_lt _ (by decide)

end Table
end Contexts
end HelgrindPlus
