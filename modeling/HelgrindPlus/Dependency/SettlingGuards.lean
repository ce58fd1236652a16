import HelgrindPlus.Dependency.ConstGuards
import HelgrindPlus.Dependency.Cycles
import HelgrindPlus.Dependency.FoldedValues
import Mathlib.Tactic.IntervalCases

/-!
# Tests that are taken for constant

`HG_(isConstTest)` simplifies the tree and then searches it for a cycle.  Where
no constants cancel the simplification changes nothing, and the search finds
every cycle that the tree has, so a test that depends on itself is not taken
for constant if the tree says so.
-/

namespace HelgrindPlus

namespace Dependency

open Outcome Bytes

/-- The search for the stores that match a load, in blocks without stores. -/
def noStores : AtStore := fun _ _ _ => .error .tlAssert

/-- The register is set to zero in every round. -/
def zeroingBlock : IRSB where
  tyenv := [.I32, .I8, .I32, .I1]
  stmts := [.iMark 0x8048000 5, .wrTmp 0 (.get 0 .I32), .wrTmp 1 (.get 0 .I8),
    .wrTmp 2 (.binop (.sub .w32) (.rdTmp 0) (.rdTmp 0)), .put 0 (.rdTmp 2),
    .wrTmp 3 (.unop (.other 0) (.rdTmp 2)), .exit (.rdTmp 3)]

private theorem zeroingBlock_guard (host : Host) (state : IRState) (k : Nat) :
    zeroingBlock.guardAt host (zeroingBlock.atRound host state k) 6 =
      some (host.op 0 [0]) := by
  have guard : zeroingBlock.guardAt host
        (zeroingBlock.atRound host state k) 6 =
      some (host.op 0 [(IROp.sub .w32).apply host
        [IRType.I32.fit (read (zeroingBlock.atRound host state k).guest 0 4),
          IRType.I32.fit
            (read (zeroingBlock.atRound host state k).guest 0 4)]]) := rfl
  have zero : ∀ value, (IROp.sub .w32).apply host [value, value] = 0 := by
    intro value
    simp only [IROp.apply, IntWidth.bits]
    omega
  rw [guard, zero]

private theorem zeroingBlock_handsBack (cell : Nat) :
    ¬ zeroingBlock.HandsBack cell := by
  rintro @⟨writer, offset, source, ty, amount, put, _, _, _, _, held, _, _⟩
  have source : source = 2 := by
    have bound : writer < 7 := (List.getElem?_eq_some_iff.mp put).1
    interval_cases writer <;> cases put
    rfl
  subst source
  have assigned : ∀ (idx : Nat) (data : IRExpr),
      zeroingBlock.stmts[idx]? = some (.wrTmp 2 data) →
        data = .binop (.sub .w32) (.rdTmp 0) (.rdTmp 0) := by
    intro idx data found
    have bound : idx < 7 := (List.getElem?_eq_some_iff.mp found).1
    interval_cases idx <;> cases found
    rfl
  cases held with
  | get found _ => cases assigned _ _ found
  | again _ _ _ _ found _ => cases assigned _ _ found
  | copy _ found => cases assigned _ _ found
  | add _ found _ => cases assigned _ _ found
  | addTo _ found _ => cases assigned _ _ found
  | sub _ found _ => cases assigned _ _ found

/-- A test can be the same in all rounds although it depends on itself and the
tree has no cycle. -/
theorem settles_not_cyclic :
    ∃ tree tree', treeInit zeroingBlock = .ok tree ∧
      isConstTest noStores 32 100 tree 6 = .ok (tree', true) ∧
      (∀ host state, ∃ first, ∀ k, first ≤ k →
        zeroingBlock.guardAt host (zeroingBlock.atRound host state k) 6 =
          zeroingBlock.guardAt host
            (zeroingBlock.atRound host state first) 6) ∧
      ¬ Acc zeroingBlock.DependsOn 6 ∧ ¬ tree.CyclicFrom 6 := by
  obtain ⟨⟨⟨tree', verdict⟩, deep⟩, done, results⟩ := exists_ok_of_map
    (show (treeInit zeroingBlock >>= fun tree =>
      isConstTest noStores 32 100 tree 6 >>= fun tested =>
        treeIsRecurse tree 6 >>= fun deep =>
          Except.ok (tested, deep)).toOption.map
            (fun results => (results.1.2, results.2)) = some (true, 0) by
        decide +kernel)
  obtain ⟨rfl, rfl⟩ : verdict = true ∧ deep = 0 := by
    simpa using results
  obtain ⟨tree, built, done⟩ := bind_eq_ok.mp done
  obtain ⟨verdict, tested, done⟩ := bind_eq_ok.mp done
  obtain ⟨deep, ended, done⟩ := bind_eq_ok.mp done
  cases done
  refine ⟨tree, tree', built, tested, ?_, ?_, ?_⟩
  · intro host state
    refine ⟨0, fun k _ => ?_⟩
    rw [zeroingBlock_guard, zeroingBlock_guard]
  · intro founded
    have writes : ∀ other, zeroingBlock.Writes 0 other → other = 4 := by
      rintro other ⟨offset, data, found, _⟩
      have bound : other < 7 := (List.getElem?_eq_some_iff.mp found).1
      interval_cases other <;> cases found
      rfl
    have last : zeroingBlock.LastWriter 0 1 4 := by
      refine ⟨⟨0, .rdTmp 2, rfl, le_rfl, by decide⟩, fun other written => ?_⟩
      have := writes other written
      omega
    have path : Relation.ReflTransGen (fun idx source =>
        zeroingBlock.DependsOn source idx) 6 3 := by
      apply Relation.ReflTransGen.head (b := 5)
      · exact .tmp rfl (List.mem_singleton_self 3) rfl
      · exact .single (.tmp rfl (List.mem_singleton_self 2) rfl)
    have cycle : Relation.TransGen (fun idx source =>
        zeroingBlock.DependsOn source idx) 3 3 := by
      apply Relation.TransGen.head (b := 1)
      · exact .tmp rfl (show 0 ∈ [0, 0] by decide) rfl
      apply Relation.TransGen.head (b := 4)
      · exact .register rfl le_rfl (by decide) last
          (.inr (zeroingBlock_handsBack 0))
      · exact .single (.tmp rfl (List.mem_singleton_self 2) rfl)
    exact Paths.not_cycle_of_acc founded path cycle
  · rintro ⟨idx, path, cycle⟩
    exact Paths.not_cycle_of_acc (clear_of_isRecurseStmt _ ended le_rfl).ends
      path cycle

end Dependency

end HelgrindPlus
