import HelgrindPlus.Dependency.Simplify

/-!
# The shape of a tree

Every node of a tree is the assignment of its temporary, and every entry of
`regLoopDefs` a write of its register.
-/

namespace HelgrindPlus

namespace Dependency

open Outcome

structure IrsbTree.Shaped (tree : IrsbTree) : Prop where
  node : ∀ tmp idx, tree.tstruct[tmp]? = some (some idx) →
    ∃ data, tree.irsb.stmts[idx]? = some (IRStmt.wrTmp tmp data)
  register : ∀ entry ∈ tree.regLoopDefs, ∃ offset ty data,
    treeNodeRegKey offset ty = .ok entry.1 ∧
      tree.irsb.stmts[entry.2]? = some (IRStmt.put offset data)

theorem treeNodeRegOffset_key {offset key : Nat} {ty : IRType}
    (keyed : treeNodeRegKey offset ty = .ok key) :
    treeNodeRegOffset key = offset := by
  obtain ⟨size, _, keyed⟩ := bind_eq_ok.mp keyed
  obtain ⟨_, first, keyed⟩ := bind_eq_ok.mp keyed
  obtain ⟨_, last, keyed⟩ := bind_eq_ok.mp keyed
  cases keyed
  have first := tlAssert_eq_ok.mp first
  have last := tlAssert_eq_ok.mp last
  rw [treeNodeRegOffset, ← Nat.shiftLeft_add_eq_or_of_lt last,
    Nat.shiftLeft_eq, Nat.shiftRight_eq_div_pow,
    show 0xFFFF = 2 ^ 16 - 1 from rfl, Nat.and_two_pow_sub_one_eq_mod]
  omega

private theorem mem_addToFM {α : Type} {key : Nat} {value : α}
    {entries : List (Nat × α)} {entry : Nat × α}
    (member : entry ∈ addToFM key value entries) :
    entry = (key, value) ∨ entry ∈ entries := by
  induction entries with
  | nil => exact .inl (List.mem_singleton.mp member)
  | cons first rest induction =>
      simp only [addToFM] at member
      split at member
      · exact List.mem_cons.mp member
      · split at member
        · rcases List.mem_cons.mp member with new | later
          · exact .inl new
          · exact .inr (List.mem_cons_of_mem _ later)
        · rcases List.mem_cons.mp member with same | later
          · exact .inr (same ▸ List.mem_cons_self)
          · exact (induction later).imp_right (List.mem_cons_of_mem _)

theorem mem_of_lookup {α : Type} {entries : List (Nat × α)} {key : Nat}
    {value : α} (found : entries.lookup key = some value) :
    (key, value) ∈ entries := by
  obtain ⟨before, after, rfl, _⟩ := List.lookup_eq_some_iff.mp found
  simp

/-- Only stores are changed. -/
theorem buildTmpStmt_shape {build build' : BuildTmp} {i : Nat}
    {st st' : IRStmt}
    (built : buildTmpStmt build i st = .ok (build', st')) :
    (st' = st ∨ st' = .comment ∧ ∃ endness addr data,
        st = .store endness addr data) ∧
      ∀ tmp idx, build'.tstruct[tmp]? = some (some idx) →
        build.tstruct[tmp]? = some (some idx) ∨
          idx = i ∧ ∃ data, st = .wrTmp tmp data := by
  unfold buildTmpStmt at built
  split at built
  · cases built
    exact ⟨.inl rfl, fun tmp idx => .inl⟩
  · split at built
    · unfold buildTmpBody at built
      split at built
      case h_1 event _ =>
        obtain ⟨after, marked, built⟩ := bind_eq_ok.mp built
        cases built
        have same : build'.tstruct = build.tstruct := by
          cases event
          case fence => cases marked; rfl
          all_goals
            obtain ⟨_, _, marked⟩ := bind_eq_ok.mp marked
            cases marked
            rfl
        rw [same]
        exact ⟨.inl rfl, fun tmp idx => .inl⟩
      case h_2 endness addr data _ =>
        cases built
        refine ⟨?_, fun tmp idx => .inl⟩
        split
        · exact .inr ⟨rfl, endness, addr, data, rfl⟩
        · exact .inl rfl
      case h_3 tmp data _ =>
        cases built
        refine ⟨.inl rfl, fun tmp' idx noted => ?_⟩
        rw [List.getElem?_set] at noted
        split at noted
        · next same =>
            split at noted
            · cases noted
              exact .inr ⟨rfl, data, by rw [same]⟩
            · cases noted
        · exact .inl noted
      case h_5 => cases built
      all_goals
        cases built
        exact ⟨.inl rfl, fun tmp idx => .inl⟩
    · cases built
      exact ⟨.inl rfl, fun tmp idx => .inl⟩

private theorem buildTmpStmts_shape {build build' : BuildTmp} {i : Nat}
    {stmts stmts' : List IRStmt}
    (built : buildTmpStmts build i stmts = .ok (build', stmts')) :
    ∀ tmp idx, build'.tstruct[tmp]? = some (some idx) →
      build.tstruct[tmp]? = some (some idx) ∨
        ∃ j data, idx = i + j ∧ stmts'[j]? = some (.wrTmp tmp data) := by
  induction stmts generalizing build i stmts' with
  | nil =>
      cases built
      exact fun tmp idx => .inl
  | cons st rest induction =>
      obtain ⟨⟨build₁, st₁⟩, first, built⟩ := bind_eq_ok.mp built
      obtain ⟨⟨build₂, rest₂⟩, later, built⟩ := bind_eq_ok.mp built
      cases built
      obtain ⟨kept, noted₁⟩ := buildTmpStmt_shape first
      intro tmp idx noted
      obtain noted | ⟨j, data, rfl, found⟩ := induction later tmp idx noted
      · obtain noted | ⟨rfl, data, rfl⟩ := noted₁ tmp idx noted
        · exact .inl noted
        · obtain rfl | ⟨_, _, _, _, other⟩ := kept
          · exact .inr ⟨0, data, rfl, rfl⟩
          · cases other
      · exact .inr ⟨j + 1, data, by omega, found⟩

/-- The writes that the scan has noted are there. -/
structure BuildRegister.Shaped (stmts : List IRStmt) (build : BuildRegister) :
    Prop where
  lastPuts : ∀ entry ∈ build.lastPuts, ∃ data,
    stmts[entry.2]? = some (.put entry.1 data)
  regLoopDefs : ∀ entry ∈ build.regLoopDefs, ∃ offset ty data,
    treeNodeRegKey offset ty = .ok entry.1 ∧
      stmts[entry.2]? = some (.put offset data)

private theorem treeNodeAddRegister_shape {stmts : List IRStmt}
    {defs defs' : List (Nat × Nat)} {offset stmtIdx : Nat} {ty : IRType}
    {data : IRAtom} (found : stmts[stmtIdx]? = some (.put offset data))
    (added : treeNodeAddRegister defs offset ty stmtIdx = .ok defs')
    (shaped : ∀ entry ∈ defs, ∃ offset ty data,
      treeNodeRegKey offset ty = .ok entry.1 ∧
        stmts[entry.2]? = some (.put offset data)) :
    ∀ entry ∈ defs', ∃ offset ty data,
      treeNodeRegKey offset ty = .ok entry.1 ∧
        stmts[entry.2]? = some (.put offset data) := by
  obtain ⟨key, keyed, added⟩ := bind_eq_ok.mp added
  cases added
  intro entry member
  rcases mem_addToFM member with rfl | old
  · exact ⟨offset, ty, data, keyed, found⟩
  · exact shaped entry old

theorem buildRegisterStmt_shape {stmts : List IRStmt} {i : Nat} {st : IRStmt}
    {build build' : BuildRegister} (found : stmts[i]? = some st)
    (built : buildRegisterStmt build i st = .ok build')
    (shaped : build.Shaped stmts) : build'.Shaped stmts := by
  unfold buildRegisterStmt at built
  split at built
  · next offset data =>
      cases built
      refine ⟨fun entry member => ?_, shaped.regLoopDefs⟩
      rcases mem_addToFM member with rfl | old
      · exact ⟨data, found⟩
      · exact shaped.lastPuts entry old
  · next offset ty =>
      split at built
      · next stmt last =>
          obtain ⟨data, put⟩ := shaped.lastPuts _ (mem_of_lookup last)
          obtain ⟨defs, added, built⟩ := bind_eq_ok.mp built
          cases built
          exact ⟨shaped.lastPuts,
            treeNodeAddRegister_shape put added shaped.regLoopDefs⟩
      · cases built
        exact ⟨shaped.lastPuts, shaped.regLoopDefs⟩
  · cases built
    exact shaped

private theorem buildRegisterStmts_shape {stmts rest : List IRStmt} {i : Nat}
    {build build' : BuildRegister}
    (suffix : ∀ j, rest[j]? = stmts[i + j]?)
    (built : buildRegisterStmts build i rest = .ok build')
    (shaped : build.Shaped stmts) : build'.Shaped stmts := by
  induction rest generalizing build i with
  | nil =>
      cases built
      exact shaped
  | cons st rest induction =>
      obtain ⟨build₁, first, built⟩ := bind_eq_ok.mp built
      have found : stmts[i]? = some st := (suffix 0).symm
      apply @induction (i + 1) build₁ _ built
      · exact buildRegisterStmt_shape found first shaped
      · intro j
        rw [Nat.add_right_comm]
        exact suffix (j + 1)

theorem treeInit_shaped {bb : IRSB} {tree : IrsbTree}
    (built : treeInit bb = .ok tree) : tree.Shaped := by
  obtain ⟨⟨build, stmts⟩, first, built⟩ := bind_eq_ok.mp built
  obtain ⟨defs, registers, built⟩ := bind_eq_ok.mp built
  cases built
  constructor
  · intro tmp idx noted
    obtain none | ⟨j, data, rfl, found⟩ :=
      buildTmpStmts_shape first tmp idx noted
    · rw [List.getElem?_replicate] at none
      split at none <;> cases none
    · exact ⟨data, by rwa [Nat.zero_add]⟩
  · obtain ⟨scan, scanned, todo⟩ := bind_eq_ok.mp registers
    have shaped : scan.Shaped stmts := by
      apply buildRegisterStmts_shape _ scanned
      · exact ⟨nofun, nofun⟩
      · intro j
        rw [Nat.zero_add]
    apply @foldlM_eq_ok_invariant _ _ _ _
      (fun (_ : ℕ) (defs : List (Nat × Nat)) => ∀ entry ∈ defs, ∃ offset ty data,
        treeNodeRegKey offset ty = .ok entry.1 ∧
          stmts[entry.2]? = some (.put offset data)) _ _ _ _
      shaped.regLoopDefs todo
    intro n defs defs' todo _ before added
    unfold buildRegisterTodo at added
    split at added
    · next stmt last =>
        obtain ⟨data, put⟩ := shaped.lastPuts _ (mem_of_lookup last)
        exact treeNodeAddRegister_shape put added before
    · cases added
      exact before

end Dependency

end HelgrindPlus
