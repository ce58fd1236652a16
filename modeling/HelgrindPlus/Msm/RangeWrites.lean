import HelgrindPlus.Msm.MachineRefinement

/-!
# Writes of any length

The handlers for writes that are not of one, two, four or eight bytes go
through the macro `LIBHB_WRITE_N`, which names the range function for reads.
They do what writes to the single bytes would do exactly if every byte
satisfies `Alike`, where a read and a write have the same outcome.
-/

namespace HelgrindPlus

open Outcome

namespace Machine

/-- The handler `evh__mem_help_write_N`, for the thread `hbthr` of the
current thread. -/
def evhMemHelpWriteN (hbthr : Nat) (s : Machine) (a size : Nat) :
    Except Abort Machine :=
  writeN hbthr s a size

def shadowMemWriteRange (hbthr : Nat) (s : Machine) (a len : Nat) :
    Except Abort Machine :=
  writeN hbthr s a len

def evhPreMemWrite (hbthr : Nat) (s : Machine) (a size : Nat) :
    Except Abort Machine :=
  shadowMemWriteRange hbthr s a size

/-- The function `zsm_apply8___msm_write` on each byte of a range in turn. -/
def writeBytes (thr : Nat) (s : Machine) (a n : Nat) : Except Abort Machine :=
  (List.range n).foldlM (fun s i => apply true .w8 thr s (a + i)) s

end Machine

/-- The number of reports that cover a byte. -/
def reportsOn (races : List Race) (c : Nat) : Nat :=
  races.countP fun race => race.addr ≤ c ∧ c < race.addr + race.szB

namespace Machine

/-- A race on the byte has been reported in between. -/
def Reported (before after : Machine) (c : Nat) : Prop :=
  reportsOn before.2.races c < reportsOn after.2.races c

/-- The shadow values of a byte stand for the same timestamps. -/
def SameValue (left right : Machine) (c : Nat) : Prop :=
  ∃ value, left.2.hb.tab.SVDenotes (left.1.byte c) value ∧
    right.2.hb.tab.SVDenotes (right.1.byte c) value

/-- A handler has the effect of writes to the single bytes. -/
def LikeBytes (thr : Nat) (s : Machine) (a n : Nat)
    (handler : Except Abort Machine) : Prop :=
  ∃ after bytewise, handler = .ok after ∧
    writeBytes thr s a n = .ok bytewise ∧
    (∀ c, a ≤ c → c < a + n → SameValue after bytewise c) ∧
    ∀ c, Reported s after c ↔ Reported s bytewise c

/-- The states in which shadow memory and the table of timestamps are in
order.  `run_wf` shows that every state reached is one. -/
def WF (s : Machine) : Prop := ∃ m, Sim s m

theorem run_wf {root : Nat} {ops : List MachineOp} {s : Machine}
    (reached : run root ops = .ok s) : s.WF := by
  obtain ⟨m, -, sim⟩ := (run_agrees root ops).eq_ok reached
  exact ⟨m, sim⟩

end Machine

namespace AbsSVal

variable {sv : AbsSVal} {clocks : Clocks}

/-- Either the thread has made the last write and has read nothing since, or
both a read and a write are races. -/
def Alike (sv : AbsSVal) (clocks : Clocks) : Prop :=
  match sv with
  | C rmin wmin => (rmin = clocks.vW ∧ wmin ≤ clocks.vW) ∨
      (¬ rmin ≤ clocks.vR ∧ ¬ wmin ≤ clocks.vW ∧ rmin ≤ wmin)
  | A | E => True
  | I => False

private theorem alike_iff (sane : clocks.Sane) :
    sv.Alike clocks ↔
      ∃ out, sv.read clocks = .ok out ∧ sv.write clocks = .ok out := by
  cases sv with
  | C rmin wmin =>
      unfold Alike read write raced
      dsimp only
      constructor
      · rintro (⟨rfl, below⟩ | ⟨readRaces, writeRaces, ordered⟩)
        · have joined : wmin.join clocks.vW = clocks.vW :=
            le_antisymm (VTS.join_le below le_rfl) (VTS.le_join_right _ _)
          have readable : clocks.vW ≤ clocks.vR := sane
          rw [if_pos readable, if_pos below, joined]
          exact ⟨_, rfl, rfl⟩
        · rw [if_neg readRaces, if_neg writeRaces, if_pos ordered]
          exact ⟨_, rfl, rfl⟩
      · rintro ⟨out, onRead, onWrite⟩
        have same := onRead.trans onWrite.symm
        split at same
        · split at same
          · rename_i below
            simp only [Except.ok.injEq, Prod.mk.injEq, C.injEq] at same
            exact .inl ⟨same.1.1, below⟩
          · split at same <;> simp at same
        · rename_i readRaces
          rw [if_neg readRaces] at onRead
          split at onRead
          · rename_i ordered
            rw [if_pos ordered] at same
            split at same
            · simp at same
            · rename_i writeRaces
              exact .inr ⟨readRaces, writeRaces, ordered⟩
          · cases onRead
  | E => exact ⟨fun _ => ⟨_, rfl, rfl⟩, fun _ => trivial⟩
  | A => exact ⟨fun _ => ⟨_, rfl, rfl⟩, fun _ => trivial⟩
  | I => exact ⟨False.elim, fun ⟨_, returned, _⟩ => by cases returned⟩

end AbsSVal

theorem reportsOn_append (first second : List Race) (c : Nat) :
    reportsOn (first ++ second) c = reportsOn first c + reportsOn second c :=
  List.countP_append

theorem reportsOn_singleton (race : Race) (c : Nat) :
    reportsOn [race] c =
      if race.addr ≤ c ∧ c < race.addr + race.szB then 1 else 0 := by
  unfold reportsOn
  rw [List.countP_singleton]
  simp only [decide_eq_true_eq]

private theorem reportsOn_bytes (race : Race) (c : Nat) :
    reportsOn race.bytes c = reportsOn [race] c := by
  obtain ⟨thr, addr, szB, isWrite⟩ := race
  induction szB with
  | zero =>
      rw [reportsOn_singleton]
      dsimp only
      rw [if_neg (by omega)]
      rfl
  | succ n induction =>
      have more := @AbsMachine.bytes_succ n ⟨thr, addr, n, isWrite⟩
      dsimp only at more
      rw [more, reportsOn_append, induction]
      simp only [reportsOn_singleton]
      grind

private theorem reportsOn_flatMap (races : List Race) (c : Nat) :
    reportsOn (races.flatMap Race.bytes) c = reportsOn races c := by
  induction races with
  | nil => rfl
  | cons race races induction =>
      rw [List.flatMap_cons, reportsOn_append, reportsOn_bytes, induction,
        ← reportsOn_append]
      rfl

namespace AbsMachine

variable {m after : AbsMachine} {isWrite : Bool} {thr a n : Nat}
  {clocks : Clocks}

/-- What an access does to a byte of its range. -/
def ByteAccessed (isWrite : Bool) (clocks : Clocks) (m after : AbsMachine)
    (c : Nat) : Prop :=
  ∃ raced, msm isWrite (m.map c) clocks = .ok (after.map c, raced) ∧
    reportsOn after.races c = reportsOn m.races c + if raced then 1 else 0

structure Accessed (isWrite : Bool) (clocks : Clocks) (m : AbsMachine)
    (a n : Nat) (after : AbsMachine) : Prop where
  hb : after.hb = m.hb
  inside : ∀ c, a ≤ c → c < a + n → ByteAccessed isWrite clocks m after c
  outside : ∀ c, ¬(a ≤ c ∧ c < a + n) → after.map c = m.map c ∧
    reportsOn after.races c = reportsOn m.races c

private theorem accessByte_returns {out : AbsSVal × Bool}
    (known : m.hb.thrs thr = some clocks)
    (verdict : msm isWrite (m.map a) clocks = .ok out) :
    Returns (accessByte isWrite thr m a) (Accessed isWrite clocks m a 1) := by
  obtain ⟨svNew, raced⟩ := out
  unfold accessByte
  simp only [known, verdict, ok_bind]
  refine Returns.pure ⟨rfl, ?_, ?_⟩
  · intro c first last
    obtain rfl : c = a := by omega
    refine ⟨raced, ?_, ?_⟩
    · rw [verdict]
      dsimp only
      rw [Function.update_self]
    · cases raced with
      | true =>
          simp only [if_true]
          rw [reportsOn_append, reportsOn_singleton, if_pos]
          exact ⟨le_rfl, Nat.lt_succ_self c⟩
      | false => rfl
  · intro c outside
    refine ⟨Function.update_of_ne (by omega) _ _, ?_⟩
    cases raced with
    | true =>
        simp only [if_true]
        rw [reportsOn_append, reportsOn_singleton, if_neg outside]
        rfl
    | false => rfl

theorem Accessed.snoc {last : AbsMachine}
    (first : Accessed isWrite clocks m a n after)
    (next : Accessed isWrite clocks after (a + n) 1 last) :
    Accessed isWrite clocks m a (n + 1) last where
  hb := next.hb.trans first.hb
  inside c from_ to_ := by
    by_cases here : c = a + n
    · obtain ⟨raced, verdict, count⟩ := next.inside c (by omega) (by omega)
      obtain ⟨map, before⟩ := first.outside c (by omega)
      rw [map] at verdict
      rw [before] at count
      exact ⟨raced, verdict, count⟩
    · obtain ⟨raced, verdict, count⟩ := first.inside c from_ (by omega)
      obtain ⟨map, later⟩ := next.outside c (by omega)
      rw [← map] at verdict
      rw [← later] at count
      exact ⟨raced, verdict, count⟩
  outside c away := by
    obtain ⟨map, before⟩ := first.outside c (by omega)
    obtain ⟨map', later⟩ := next.outside c (by omega)
    exact ⟨map'.trans map, later.trans before⟩

theorem access_returns (known : m.hb.thrs thr = some clocks)
    (fine : ∀ c, a ≤ c → c < a + n →
      ∃ out, msm isWrite (m.map c) clocks = .ok out) :
    Returns (access isWrite thr m a n) (Accessed isWrite clocks m a n) := by
  induction n with
  | zero =>
      rw [access_zero]
      exact Returns.ok ⟨rfl, fun c from_ to_ => by omega,
        fun _ _ => ⟨rfl, rfl⟩⟩
  | succ n induction =>
      rw [access_add]
      apply (induction fun c from_ to_ => fine c from_ (by omega)).bind
      intro after first
      obtain ⟨out, verdict⟩ := fine (a + n) (by omega) (by omega)
      rw [← (first.outside (a + n) (by omega)).1] at verdict
      rw [← first.hb] at known
      rw [access_one]
      exact (accessByte_returns known verdict).mono fun _ => first.snoc

/-- An access that returns has found every byte accessible. -/
theorem access_fine (known : m.hb.thrs thr = some clocks)
    (returned : access isWrite thr m a n = .ok after) :
    ∀ c, a ≤ c → c < a + n →
      ∃ out, msm isWrite (m.map c) clocks = .ok out := by
  induction n generalizing after with
  | zero =>
      intro c from_ to_
      omega
  | succ n induction =>
      rw [access_add] at returned
      obtain ⟨middle, done, last⟩ := bind_eq_ok.mp returned
      have fine := induction done
      intro c from_ to_
      by_cases here : c = a + n
      · have first := (access_returns known fine).of_eq_ok done
        rw [access_one] at last
        unfold accessByte at last
        rw [first.hb, known] at last
        obtain ⟨out, verdict, -⟩ := bind_eq_ok.mp last
        rw [(first.outside (a + n) (by omega)).1, ← here] at verdict
        exact ⟨out, verdict⟩
      · exact fine c from_ (by omega)

theorem access_accessed (known : m.hb.thrs thr = some clocks)
    (returned : access isWrite thr m a n = .ok after) :
    Accessed isWrite clocks m a n after :=
  (access_returns known (access_fine known returned)).of_eq_ok returned

end AbsMachine

namespace Machine

variable {s after : Machine} {m m' : AbsMachine} {thr a n : Nat}
  {isWrite : Bool} {clocks : Clocks}

/-- The condition on a byte, for the thread record `t`. -/
def AlikeAt (s : Machine) (t : Thr) (c : Nat) : Prop :=
  ∃ value clocks, s.2.hb.tab.SVDenotes (s.1.byte c) value ∧
    s.2.hb.tab.Denotes t.viR t.viW clocks ∧ value.Alike clocks

private theorem writeBytes_agrees (sim : Sim s m) (thr a n : Nat) :
    Agrees (writeBytes thr s a n) (AbsMachine.access true thr m a n) Sim := by
  apply Agrees.foldlM _ _ sim
  intro i s m sim
  rw [← AbsMachine.access_one]
  exact sim.apply_agrees .w8 (a + i)

theorem reportsOn_eq (sim : Sim s m) (c : Nat) :
    reportsOn s.2.races c = reportsOn m.races c := by
  rw [← sim.races, reportsOn_flatMap]

/-- Whether a byte is reported, read off the machine on a plain map. -/
theorem reported_iff (sim : Sim s m) (sim' : Sim after m')
    (accessed : AbsMachine.Accessed isWrite clocks m a n m') (c : Nat) :
    Reported s after c ↔ (a ≤ c ∧ c < a + n) ∧
      AbsMachine.msm isWrite (m.map c) clocks = .ok (m'.map c, true) := by
  unfold Reported
  rw [reportsOn_eq sim, reportsOn_eq sim']
  by_cases inside : a ≤ c ∧ c < a + n
  · obtain ⟨raced, verdict, count⟩ := accessed.inside c inside.1 inside.2
    rw [count, verdict]
    cases raced with
    | true => simp [inside]
    | false => simp
  · rw [(accessed.outside c inside).2]
    simp [inside]

theorem SameValue.eq {bytewise : Machine} {m₁ m₂ : AbsMachine} {c : Nat}
    (sim₁ : Sim after m₁) (sim₂ : Sim bytewise m₂)
    (same : SameValue after bytewise c) : m₁.map c = m₂.map c := by
  obtain ⟨value, left, right⟩ := same
  rw [(sim₁.bytes c).unique left, (sim₂.bytes c).unique right]

/-- Writes through `LIBHB_WRITE_N` have the right effect exactly where reads
and writes do the same. -/
theorem likeBytes_iff (sim : Sim s m) (known : m.hb.thrs thr = some clocks)
    (sane : clocks.Sane) :
    LikeBytes thr s a n (writeN thr s a n) ↔
      ∀ c, a ≤ c → c < a + n → (m.map c).Alike clocks := by
  obtain ⟨z, core⟩ := s
  have onRange := @Sim.applyRange_agrees z core m false thr sim a n
  have onBytes := writeBytes_agrees sim thr a n
  constructor
  · rintro ⟨after, bytewise, handled, written, values, reports⟩
    intro c from_ to_
    obtain ⟨m₁, read, sim₁⟩ := onRange.eq_ok handled
    obtain ⟨m₂, write, sim₂⟩ := onBytes.eq_ok written
    have reads := AbsMachine.access_accessed known read
    have writes := AbsMachine.access_accessed known write
    obtain ⟨racedRead, onRead, -⟩ := reads.inside c from_ to_
    obtain ⟨racedWrite, onWrite, -⟩ := writes.inside c from_ to_
    have reported := reports c
    rw [reported_iff sim sim₁ reads, reported_iff sim sim₂ writes, onRead,
      onWrite] at reported
    have raced : racedRead = racedWrite := by
      rw [Bool.eq_iff_iff]
      simpa [from_, to_] using reported
    rw [(values c from_ to_).eq sim₁ sim₂, raced] at onRead
    exact (AbsSVal.alike_iff sane).mpr ⟨_, onRead, onWrite⟩
  · intro alike
    have both := fun c from_ to_ =>
      (AbsSVal.alike_iff sane).mp (alike c from_ to_)
    have readable : ∀ c, a ≤ c → c < a + n →
        ∃ out, AbsMachine.msm false (m.map c) clocks = .ok out :=
      fun c from_ to_ => (both c from_ to_).imp fun _ => And.left
    have writable : ∀ c, a ≤ c → c < a + n →
        ∃ out, AbsMachine.msm true (m.map c) clocks = .ok out :=
      fun c from_ to_ => (both c from_ to_).imp fun _ => And.right
    obtain ⟨m₁, read, reads⟩ := AbsMachine.access_returns known readable
    obtain ⟨m₂, write, writes⟩ := AbsMachine.access_returns known writable
    rw [read] at onRange
    rw [write] at onBytes
    obtain ⟨after, handled, sim₁⟩ := onRange
    obtain ⟨bytewise, written, sim₂⟩ := onBytes
    -- at each byte both machines have made the same step
    have agree : ∀ c, a ≤ c → c < a + n → m₁.map c = m₂.map c ∧
        AbsMachine.msm false (m.map c) clocks =
          AbsMachine.msm true (m.map c) clocks := by
      intro c from_ to_
      obtain ⟨out, onRead, onWrite⟩ := both c from_ to_
      obtain ⟨_, left, -⟩ := reads.inside c from_ to_
      obtain ⟨_, right, -⟩ := writes.inside c from_ to_
      have same : AbsMachine.msm false (m.map c) clocks =
        AbsMachine.msm true (m.map c) clocks := onRead.trans onWrite.symm
      rw [left, right] at same
      refine ⟨congrArg Prod.fst (Except.ok.inj same), ?_⟩
      rw [left, right, same]
    refine ⟨after, bytewise, handled, written, ?_, ?_⟩
    · intro c from_ to_
      refine ⟨m₁.map c, sim₁.bytes c, ?_⟩
      rw [(agree c from_ to_).1]
      exact sim₂.bytes c
    · intro c
      rw [reported_iff sim sim₁ reads, reported_iff sim sim₂ writes]
      apply and_congr_right
      rintro ⟨from_, to_⟩
      rw [(agree c from_ to_).1, (agree c from_ to_).2]

/-- The handlers for writes of any length do what writes to the single bytes
do if and only if every byte satisfies `AlikeAt`. -/
theorem write_handlers_like_bytes_iff {t : Thr} (wf : s.WF)
    (present : s.2.hb.thrs.lookup thr = some t) (a n : Nat) :
    (LikeBytes thr s a n (evhMemHelpWriteN thr s a n) ∧
      LikeBytes thr s a n (evhPreMemWrite thr s a n)) ↔
      ∀ c, a ≤ c → c < a + n → s.AlikeAt t c := by
  obtain ⟨m, sim⟩ := wf
  obtain ⟨clocks, known, denotes⟩ := sim.hb.thrs.of_bound present
  have pair : (LikeBytes thr s a n (evhMemHelpWriteN thr s a n) ∧
      LikeBytes thr s a n (evhPreMemWrite thr s a n)) ↔
      LikeBytes thr s a n (writeN thr s a n) := and_self_iff
  rw [pair, likeBytes_iff sim known denotes.sane]
  apply forall_congr'
  intro c
  apply forall₂_congr
  intro from_ to_
  constructor
  · intro alike
    exact ⟨m.map c, clocks, sim.bytes c, denotes, alike⟩
  · rintro ⟨value, clocks', same, denotes', alike⟩
    rw [(sim.bytes c).unique same, denotes.unique denotes']
    exact alike

/-- Memory that the writing thread has just got is such a case. -/
theorem write_handlers_like_bytes_own : ∃ s t,
    run 1 [.rangeNew 1 4096 16] = .ok s ∧ s.2.hb.thrs.lookup 1 = some t ∧
      LikeBytes 1 s 4096 16 (evhMemHelpWriteN 1 s 4096 16) ∧
      LikeBytes 1 s 4096 16 (evhPreMemWrite 1 s 4096 16) := by
  have agrees := run_agrees 1 [.rangeNew 1 4096 16]
  obtain ⟨s, reached, sim⟩ := agrees
  have root : (AbsMachine.init 1).hb.thrs 1 = some _ := rfl
  obtain ⟨t, present, denotes⟩ := sim.hb.thrs.of_some root
  refine ⟨s, t, reached, present, ?_⟩
  apply (write_handlers_like_bytes_iff ⟨_, sim⟩ present 4096 16).mpr
  intro c from_ to_
  refine ⟨_, _, sim.bytes c, denotes, ?_⟩
  dsimp only
  rw [fill, if_pos ⟨from_, to_⟩]
  exact .inl ⟨rfl, le_rfl⟩

theorem not_likeBytes {bytewise : Machine} {handler : Except Abort Machine}
    {c : Nat} (handled : handler = .ok after)
    (written : writeBytes thr s a n = .ok bytewise)
    (silent : ¬ Reported s after c) (reported : Reported s bytewise c) :
    ¬ LikeBytes thr s a n handler := by
  rintro ⟨after', bytewise', handled', written', -, reports⟩
  rw [handled] at handled'
  rw [written] at written'
  cases handled'
  cases written'
  exact silent ((reports c).mpr reported)

/-- A thread has read a byte of memory that another one has set up, and
nothing orders the read before a write of sixteen bytes.  The handlers
report nothing; a write to the byte would have been reported. -/
theorem wide_write_misses_race : ∃ s after bytewise,
    run 1 [.rangeNew 1 4096 16, .hb (.sync (.create 1 2)),
      .apply false .w8 2 4096] = .ok s ∧
    evhMemHelpWriteN 1 s 4096 16 = .ok after ∧
    evhPreMemWrite 1 s 4096 16 = .ok after ∧
    writeBytes 1 s 4096 16 = .ok bytewise ∧
    ¬ Reported s after 4096 ∧ Reported s bytewise 4096 ∧
    ¬ LikeBytes 1 s 4096 16 (evhMemHelpWriteN 1 s 4096 16) ∧
    ¬ LikeBytes 1 s 4096 16 (evhPreMemWrite 1 s 4096 16) := by
  have seen : ((run 1 [.rangeNew 1 4096 16, .hb (.sync (.create 1 2)),
      .apply false .w8 2 4096]).toOption.map fun s =>
        (reportsOn s.2.races 4096,
          (writeN 1 s 4096 16).toOption.map (reportsOn ·.2.races 4096),
          (writeBytes 1 s 4096 16).toOption.map
            (reportsOn ·.2.races 4096))) = some (0, some 0, some 1) := by
    decide +kernel
  obtain ⟨s, reached, counts⟩ := exists_ok_of_map seen
  simp only [Prod.mk.injEq] at counts
  obtain ⟨before, onRange, onBytes⟩ := counts
  obtain ⟨after, handled, none⟩ := exists_ok_of_map onRange
  obtain ⟨bytewise, written, one⟩ := exists_ok_of_map onBytes
  have silent : ¬ Reported s after 4096 := by
    unfold Reported
    omega
  have reported : Reported s bytewise 4096 := by
    unfold Reported
    omega
  exact ⟨s, after, bytewise, reached, handled, handled, written, silent,
    reported, not_likeBytes handled written silent reported,
    not_likeBytes handled written silent reported⟩

end Machine

end HelgrindPlus
