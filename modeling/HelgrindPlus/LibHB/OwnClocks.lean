import HelgrindPlus.LibHB.HbOps

/-!
# Threads are ahead in their own component

No clock of another thread, and none in a synchronisation object, counts more
ticks of a thread than the thread itself.  Moreover the clocks of a thread
only grow.  Both hold of the read clock and of the write clock on their own,
so weak receives do no harm.
-/

namespace HelgrindPlus

namespace Clocks

instance : Preorder Clocks where
  le left right := left.vR ≤ right.vR ∧ left.vW ≤ right.vW
  le_refl _ := ⟨le_rfl, le_rfl⟩
  le_trans _ _ _ first second :=
    ⟨first.1.trans second.1, first.2.trans second.2⟩

variable {clocks left right own : Clocks} {thr : Nat}

theorem le_tick (clocks : Clocks) (me : Nat) : clocks ≤ clocks.tick me :=
  ⟨VTS.le_tick me clocks.vR, VTS.le_tick me clocks.vW⟩

theorem le_join_left (left right : Clocks) : left ≤ left.join right :=
  ⟨VTS.le_join_left _ _, VTS.le_join_left _ _⟩

theorem le_join_right (left right : Clocks) : right ≤ left.join right :=
  ⟨VTS.le_join_right _ _, VTS.le_join_right _ _⟩

/-- In the component of a thread. -/
def Behind (clocks : Clocks) (thr : Nat) (own : Clocks) : Prop :=
  clocks.vR.indexAt thr ≤ own.vR.indexAt thr ∧
    clocks.vW.indexAt thr ≤ own.vW.indexAt thr

theorem Behind.of_le (below : clocks ≤ own) (thr : Nat) :
    clocks.Behind thr own :=
  ⟨below.1 thr, below.2 thr⟩

theorem Behind.trans (behind : clocks.Behind thr left)
    (also : left.Behind thr own) : clocks.Behind thr own :=
  ⟨behind.1.trans also.1, behind.2.trans also.2⟩

theorem Behind.join (first : left.Behind thr own)
    (second : right.Behind thr own) : (left.join right).Behind thr own := by
  constructor
  · rw [Clocks.join, VTS.indexAt_join]
    exact max_le first.1 second.1
  · rw [Clocks.join, VTS.indexAt_join]
    exact max_le first.2 second.2

theorem Behind.tick {me : Nat} (behind : clocks.Behind thr own)
    (apart : thr ≠ me) : (clocks.tick me).Behind thr own := by
  constructor
  · rw [Clocks.tick, VTS.indexAt_tick, if_neg apart]
    exact behind.1
  · rw [Clocks.tick, VTS.indexAt_tick, if_neg apart]
    exact behind.2

end Clocks

namespace AbsHb

variable {abs abs' : AbsHb} {thr so : Nat} {clocks own : Clocks}
  {contents : Option Clocks}

theorem le_received (strong : Bool) :
    clocks ≤ received clocks contents strong := by
  cases contents with
  | none => exact le_refl clocks
  | some posted =>
      cases strong with
      | true => exact Clocks.le_join_left clocks posted
      | false => exact ⟨VTS.le_join_left _ _, le_rfl⟩

/-- The clocks that are stored, in a thread or in an object. -/
inductive Stores (abs : AbsHb) (clocks : Clocks) : Prop where
  | thr (thr : Nat) (stored : abs.thrs thr = some clocks)
  | so (so : Nat) (stored : abs.sos so = some (some clocks))

def Leads (abs : AbsHb) : Prop :=
  ∀ thr own, abs.thrs thr = some own →
    ∀ clocks, abs.Stores clocks → clocks.Behind thr own

theorem Leads.init (root : Nat) : (AbsHb.init root).Leads := by
  have only : ∀ thr own, (AbsHb.init root).thrs thr = some own →
      own = ⟨VTS.singleton root 1 Nat.one_pos,
        VTS.singleton root 1 Nat.one_pos⟩ := by
    intro thr own stored
    by_cases same : thr = root
    · simpa [AbsHb.init, same, eq_comm] using stored
    · simp [AbsHb.init, same] at stored
  intro thr own isOwn clocks stores
  cases stores with
  | thr other stored =>
      rw [only thr own isOwn, only other clocks stored]
      exact .of_le le_rfl thr
  | so so stored => cases stored

theorem Stores.of_setThr (stores : (abs.setThr thr own).Stores clocks) :
    clocks = own ∨ abs.Stores clocks := by
  cases stores with
  | thr other stored =>
      by_cases same : other = thr
      · subst same
        left
        simpa [setThr, eq_comm] using stored
      · right
        exact .thr other (by simpa [setThr, same] using stored)
  | so so stored => exact .inr (.so so stored)

theorem Stores.of_setSO (stores : (abs.setSO so contents).Stores clocks) :
    contents = some clocks ∨ abs.Stores clocks := by
  cases stores with
  | thr thr stored => exact .inr (.thr thr stored)
  | so other stored =>
      by_cases same : other = so
      · subst same
        left
        simpa [setSO] using stored
      · right
        exact .so other (by simpa [setSO, same] using stored)

/-- A thread may replace its clocks by some that are behind those of the other
threads, and that nobody is ahead of. -/
theorem Leads.setThr (leads : abs.Leads)
    (behind : ∀ other theirs, other ≠ thr → abs.thrs other = some theirs →
      own.Behind other theirs)
    (ahead : ∀ clocks, abs.Stores clocks → clocks.Behind thr own) :
    (abs.setThr thr own).Leads := by
  intro other theirs stored clocks stores
  by_cases same : other = thr
  · subst same
    obtain rfl : own = theirs := by simpa [AbsHb.setThr] using stored
    rcases stores.of_setThr with rfl | old
    · exact .of_le le_rfl other
    · exact ahead clocks old
  · have old : abs.thrs other = some theirs := by
      simpa [AbsHb.setThr, same] using stored
    rcases stores.of_setThr with rfl | before
    · exact behind other theirs same old
    · exact leads other theirs old clocks before

theorem Leads.setSO (leads : abs.Leads)
    (behind : ∀ clocks, contents = some clocks →
      ∀ thr own, abs.thrs thr = some own → clocks.Behind thr own) :
    (abs.setSO so contents).Leads := by
  intro thr own stored clocks stores
  rcases stores.of_setSO with isNew | old
  · exact behind clocks isNew thr own stored
  · exact leads thr own stored clocks old

theorem Leads.dropSO (leads : abs.Leads) (so : Nat) :
    Leads { abs with sos := Function.update abs.sos so none } := by
  intro thr own stored clocks stores
  apply leads thr own stored clocks
  cases stores with
  | thr thr known => exact .thr thr known
  | so other known =>
      by_cases same : other = so
      · simp [same] at known
      · exact .so other (by simpa [same] using known)

/-- What a thread has seen, it may add to its clocks. -/
theorem Leads.advance (leads : abs.Leads) (isThr : abs.thrs thr = some clocks)
    (grows : clocks ≤ own)
    (behind : ∀ other theirs, other ≠ thr → abs.thrs other = some theirs →
      own.Behind other theirs) : (abs.setThr thr own).Leads := by
  apply leads.setThr behind
  intro stored stores
  exact (leads thr clocks isThr stored stores).trans (.of_le grows thr)

theorem Leads.tick (leads : abs.Leads) (isThr : abs.thrs thr = some clocks) :
    (abs.setThr thr (clocks.tick thr)).Leads := by
  apply leads.advance isThr (clocks.le_tick thr)
  intro other theirs apart stored
  exact (leads other theirs stored clocks (.thr thr isThr)).tick apart

theorem Leads.create {child : Nat} (leads : abs.Leads)
    (grounded : abs.Grounded) (unused : abs.thrs child = none)
    (isThr : abs.thrs thr = some clocks) :
    (abs.setThr child (clocks.tick child)).Leads := by
  apply leads.setThr
  · intro other theirs apart stored
    exact (leads other theirs stored clocks (.thr thr isThr)).tick apart
  · intro stored stores
    -- nobody has heard of the child
    have mentions : stored.Mentions abs.Exists := by
      cases stores with
      | thr other known => exact grounded.thrs other stored known
      | so so known => exact grounded.sos so stored known
    obtain ⟨read, write⟩ := mentions child (not_not.mpr unused)
    exact ⟨read.trans_le (Nat.zero_le _), write.trans_le (Nat.zero_le _)⟩

theorem Leads.sent {strong : Bool} (leads : abs.Leads)
    (isThr : abs.thrs thr = some clocks)
    (isSO : abs.sos so = some contents) :
    (abs.setSO so (some (sent contents clocks strong))).Leads := by
  apply leads.setSO
  intro posted isPosted other theirs stored
  cases isPosted
  have mine := leads other theirs stored clocks (.thr thr isThr)
  cases contents with
  | none => exact mine
  | some old =>
      cases strong with
      | true => exact mine
      | false => exact (leads other theirs stored old (.so so isSO)).join mine

theorem Leads.received {strong : Bool} (leads : abs.Leads)
    (isThr : abs.thrs thr = some clocks)
    (isSO : abs.sos so = some contents) :
    (abs.setThr thr (received clocks contents strong)).Leads := by
  apply leads.advance isThr (le_received strong)
  intro other theirs apart stored
  have mine := leads other theirs stored clocks (.thr thr isThr)
  cases contents with
  | none => exact mine
  | some posted =>
      have both :=
        mine.join (leads other theirs stored posted (.so so isSO))
      cases strong with
      | true => exact both
      | false => exact ⟨both.1, mine.2⟩

/-- The clocks of threads only grow. -/
def Grows (abs abs' : AbsHb) : Prop :=
  ∀ thr clocks, abs.thrs thr = some clocks →
    ∃ later, abs'.thrs thr = some later ∧ clocks ≤ later

theorem Grows.of_thrs_eq (same : abs'.thrs = abs.thrs) : abs.Grows abs' :=
  fun _ clocks stored => ⟨clocks, same ▸ stored, le_rfl⟩

theorem Grows.trans {abs'' : AbsHb} (first : abs.Grows abs')
    (second : abs'.Grows abs'') : abs.Grows abs'' := by
  intro thr clocks stored
  obtain ⟨middle, isMiddle, below⟩ := first thr clocks stored
  obtain ⟨later, isLater, above⟩ := second thr middle isMiddle
  exact ⟨later, isLater, below.trans above⟩

theorem Grows.setThr (grows : ∀ clocks, abs.thrs thr = some clocks →
    clocks ≤ own) : abs.Grows (abs.setThr thr own) := by
  intro other clocks stored
  by_cases same : other = thr
  · subst same
    exact ⟨own, by simp [AbsHb.setThr], grows clocks stored⟩
  · exact ⟨clocks, by simpa [AbsHb.setThr, same] using stored, le_rfl⟩

/-- What is left of an operation once its ids are forgotten. -/
def Progress (abs abs' : AbsHb) : Prop :=
  abs.Grows abs' ∧ (abs.Grounded → abs.Leads → abs'.Leads)

theorem step_progress {op : SyncOp} (allowed : abs.step op = some abs') :
    abs.Progress abs' := by
  cases op with
  | create thr child =>
      simp only [AbsHb.step, Option.bind_eq_bind, Option.bind_eq_some_iff,
        Option.ite_none_right_eq_some, Option.some.injEq] at allowed
      obtain ⟨clocks, atThr, unused, rfl⟩ := allowed
      simp only [AbsHb.unused, Bool.and_eq_true,
        Option.isNone_iff_eq_none] at unused
      have apart : thr ≠ child := by
        intro same
        rw [← same, atThr] at unused
        cases unused.1
      have atThr' : (abs.setThr child (clocks.tick child)).thrs thr =
          some clocks := by
        simpa [AbsHb.setThr, apart] using atThr
      constructor
      · have created : abs.Grows (abs.setThr child (clocks.tick child)) := by
          apply Grows.setThr
          intro old isOld
          rw [unused.1] at isOld
          cases isOld
        apply created.trans
        apply Grows.setThr
        intro old isOld
        rw [atThr'] at isOld
        cases isOld
        exact clocks.le_tick thr
      · intro grounded leads
        exact (leads.create grounded unused.1 atThr).tick atThr'
  | soAlloc thr so =>
      simp only [AbsHb.step, Option.bind_eq_bind, Option.bind_eq_some_iff,
        Option.ite_none_right_eq_some, Option.some.injEq] at allowed
      obtain ⟨_, _, _, rfl⟩ := allowed
      refine ⟨.of_thrs_eq rfl, fun _ leads => leads.setSO ?_⟩
      intro clocks impossible
      cases impossible
  | soDealloc thr so =>
      simp only [AbsHb.step, Option.bind_eq_bind, Option.bind_eq_some_iff,
        Option.some.injEq] at allowed
      obtain ⟨_, _, _, _, rfl⟩ := allowed
      exact ⟨.of_thrs_eq rfl, fun _ leads => leads.dropSO so⟩
  | soSend thr so strong =>
      simp only [AbsHb.step, Option.bind_eq_bind, Option.bind_eq_some_iff,
        Option.some.injEq] at allowed
      obtain ⟨clocks, atThr, contents, atSO, rfl⟩ := allowed
      constructor
      · apply Grows.setThr
        intro old isOld
        obtain rfl : clocks = old := by
          simpa [AbsHb.setSO, atThr] using isOld
        exact clocks.le_tick thr
      · intro _ leads
        exact (leads.sent atThr atSO).tick atThr
  | soRecv thr so strong =>
      simp only [AbsHb.step, Option.bind_eq_bind, Option.bind_eq_some_iff,
        Option.some.injEq] at allowed
      obtain ⟨clocks, atThr, contents, atSO, rfl⟩ := allowed
      constructor
      · apply Grows.setThr
        intro old isOld
        obtain rfl : clocks = old := by simpa [atThr] using isOld
        exact le_received strong
      · intro _ leads
        exact leads.received atThr atSO

private theorem soJoin_progress {so1 so2 : Nat}
    (done : abs.soJoin so1 so2 = .ok abs') : abs.Progress abs' := by
  unfold soJoin at done
  split at done
  case h_2 => cases done
  case h_1 contents1 contents2 at1 at2 =>
  split at done
  · cases done
    exact ⟨.of_thrs_eq rfl, fun _ leads => leads⟩
  · split at done
    · cases done
      exact ⟨.of_thrs_eq rfl, fun _ leads => leads⟩
    · cases done
      refine ⟨.of_thrs_eq rfl, fun _ leads => leads.setSO ?_⟩
      intro clocks isNew thr own stored
      cases isNew
      exact (leads thr own stored _ (.so so1 at1)).join
        (leads thr own stored _ (.so so2 at2))
    · cases done
    · cases done

theorem perform_progress {op : HbOp} (done : abs.perform op = .ok abs') :
    abs.Progress abs' := by
  cases op with
  | sync op =>
      simp only [perform] at done
      split at done
      · cases done
        exact step_progress ‹_›
      · cases done
  | soJoin so1 so2 => exact soJoin_progress done
  | soExtract thr so =>
      simp only [perform, soExtract] at done
      split at done
      · rename_i clocks isThr
        split at done
        · cases done
          refine ⟨.of_thrs_eq rfl, fun _ leads => leads.setSO ?_⟩
          intro new isNew other own stored
          cases isNew
          exact leads other own stored clocks (.thr thr isThr)
        · cases done
      · cases done
  | soEverSent so =>
      simp only [perform] at done
      split at done
      · cases done
        exact ⟨.of_thrs_eq rfl, fun _ leads => leads⟩
      · cases done

end AbsHb
end HelgrindPlus
