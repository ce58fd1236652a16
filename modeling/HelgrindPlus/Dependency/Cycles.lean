import HelgrindPlus.Dependency.ConstTest
import HelgrindPlus.Dependency.OptimiseFast
import HelgrindPlus.Dependency.LoadWalk

/-!
# The search for a cycle

`tree_isRecurse` takes what is too deep for a cycle.  The depth is the number
of statements on the path, so that a path which is deeper than the block has
statements comes back to one of them.
-/

namespace HelgrindPlus

namespace Dependency

open Outcome Relation

/-- The expressions of a statement that the search comes to. -/
def IRStmt.searched : IRStmt → List IRExpr
  | store _ addr data => [.atom addr, .atom data]
  | st => st.walked

namespace IrsbTree

variable (tree : IrsbTree)

/-- A statement has a value from another one, also what it stores. -/
def Uses (idx source : Nat) : Prop :=
  ∃ st e, tree.irsb.stmts[idx]? = some st ∧ e ∈ st.searched ∧
    leadsTo tree true e = .ok (some source)

/-- A statement that is reached depends on itself. -/
def CyclicFrom (root : Nat) : Prop :=
  ∃ idx, ReflTransGen tree.Uses root idx ∧ TransGen tree.Uses idx idx

/-- A statement that is reached has a call or an indexed read. -/
def UnknownFrom (root : Nat) : Prop :=
  ∃ idx st e, ReflTransGen tree.Uses root idx ∧
    tree.irsb.stmts[idx]? = some st ∧ e ∈ st.searched ∧ e.unknown = true

end IrsbTree

section Ended

variable {tree : IrsbTree} {left idx : Nat} {st : IRStmt} {v : Int}

/-- Nothing that is reached is unknown, and every path ends. -/
structure Clear (tree : IrsbTree) (idx : Nat) : Prop where
  ends : Acc (fun source idx => tree.Uses idx source) idx
  known : ¬ tree.UnknownFrom idx

/-- A statement is clear if its expressions are known and what it uses is. -/
theorem clear_of_sources (found : tree.irsb.stmts[idx]? = some st)
    (known : ∀ e ∈ st.searched, e.unknown = false)
    (sources : ∀ e ∈ st.searched, ∀ source,
      leadsTo tree true e = .ok (some source) → Clear tree source) :
    Clear tree idx := by
  have below : ∀ source, tree.Uses idx source → Clear tree source := by
    rintro source ⟨st', e, found', member, led⟩
    rw [found] at found'
    cases found'
    exact sources e member source led
  constructor
  · exact .intro idx fun source uses => (below source uses).ends
  · rintro ⟨last, st', e, path, found', member, unknown⟩
    rcases ReflTransGen.cases_head path with rfl | ⟨source, uses, path⟩
    · rw [found] at found'
      cases found'
      rw [known e member] at unknown
      cases unknown
    · exact (below source uses).known
        ⟨last, st', e, path, found', member, unknown⟩

private theorem mem_tmps_of_child {data : IRExpr} {arg : IRAtom} {tmp : Nat}
    (child : .atom arg ∈ data :: data.children.map IRExpr.atom)
    (read : tmp ∈ arg.tmps) : tmp ∈ data.tmps := by
  rcases List.mem_cons.mp child with rfl | child
  · exact read
  · obtain ⟨arg', member, same⟩ := List.mem_map.mp child
    cases same
    exact children_tmps member read

private theorem known_of_nonpos {search deeper : IRAtom → Except Halt Int}
    {data : IRExpr}
    (searched : isRecurseExpr tree search deeper data = .ok v)
    (nonpos : v ≤ 0) : data.unknown = false := by
  cases data with
  | getI descr ix bias =>
      cases searched
      omega
  | ccall cee retty args =>
      cases searched
      omega
  | _ => rfl

theorem searchArgs_nonpos {search : IRAtom → Except Halt Int}
    {args : List IRAtom} {res v : Int}
    (searched : searchArgs search res args = .ok v) (nonpos : v ≤ 0) :
    ∀ arg ∈ args, ∃ v, search arg = .ok v ∧ v ≤ 0 := by
  induction args generalizing res with
  | nil => simp
  | cons arg rest induction =>
      obtain ⟨t, first, searched⟩ := bind_eq_ok.mp searched
      split at searched
      · cases searched
        omega
      · next small =>
          exact List.forall_mem_cons.mpr
            ⟨⟨t, first, by omega⟩, induction searched⟩

private theorem searchLast_nonpos {search : IRAtom → Except Halt Int}
    {args : List IRAtom} {res v : Int}
    (searched : searchLast search res args = .ok v) (nonpos : v ≤ 0) :
    ∀ arg ∈ args, ∃ v, search arg = .ok v ∧ v ≤ 0 := by
  induction args generalizing res with
  | nil => simp
  | cons arg rest induction =>
      obtain ⟨t, first, searched⟩ := bind_eq_ok.mp searched
      split at searched
      · cases searched
        omega
      · next small =>
          exact List.forall_mem_cons.mpr
            ⟨⟨t, first, by omega⟩, induction searched⟩

/-- An expression for which the search ends: its temporaries were searched,
and for a register the operand that was written to it. -/
theorem isRecurseExpr_nonpos {search deeper : IRAtom → Except Halt Int}
    {data : IRExpr} {v : Int}
    (searched : isRecurseExpr tree search deeper data = .ok v)
    (nonpos : v ≤ 0) :
    (∀ tmp ∈ data.tmps, ∃ v, search (.rdTmp tmp) = .ok v ∧ v ≤ 0) ∧
      ∀ offset ty writer, data = .get offset ty →
        treeNodeRegister tree offset ty = .ok (some writer) →
        ∃ arg v, putData tree writer = .ok arg ∧ deeper arg = .ok v ∧
          v ≤ 0 := by
  have atoms : ∀ (args : List IRAtom),
      (∀ arg ∈ args, ∃ v, search arg = .ok v ∧ v ≤ 0) →
      ∀ tmp ∈ args.flatMap IRAtom.tmps,
        ∃ v, search (.rdTmp tmp) = .ok v ∧ v ≤ 0 := by
    intro args each tmp member
    obtain ⟨arg, member, read⟩ := List.mem_flatMap.mp member
    cases arg with
    | rdTmp tmp' =>
        obtain rfl := List.mem_singleton.mp read
        exact each _ member
    | const con => cases read
  cases data with
  | get offset ty =>
      refine ⟨fun tmp member => (List.not_mem_nil member).elim, ?_⟩
      rintro _ _ writer ⟨⟩ noted
      simp only [isRecurseExpr, noted, ok_bind] at searched
      obtain ⟨arg, found, searched⟩ := bind_eq_ok.mp searched
      exact ⟨arg, v, found, searched, nonpos⟩
  | getI descr ix bias =>
      cases searched
      omega
  | ccall cee retty args =>
      cases searched
      omega
  | atom operand =>
      refine ⟨?_, fun _ _ _ read => by cases read⟩
      intro tmp member
      apply atoms [operand] _ tmp (by simpa [IRExpr.tmps] using member)
      exact List.forall_mem_singleton.mpr ⟨v, searched, nonpos⟩
  | unop op arg =>
      refine ⟨?_, fun _ _ _ read => by cases read⟩
      intro tmp member
      apply atoms [arg] _ tmp (by simpa [IRExpr.tmps] using member)
      exact List.forall_mem_singleton.mpr ⟨v, searched, nonpos⟩
  | load endness ty addr =>
      refine ⟨?_, fun _ _ _ read => by cases read⟩
      intro tmp member
      apply atoms [addr] _ tmp (by simpa [IRExpr.tmps] using member)
      exact List.forall_mem_singleton.mpr ⟨v, searched, nonpos⟩
  | qop op arg1 arg2 arg3 arg4 =>
      refine ⟨?_, fun _ _ _ read => by cases read⟩
      have each := atoms _ (searchArgs_nonpos searched nonpos)
      simpa [IRExpr.tmps, or_assoc] using each
  | triop op arg1 arg2 arg3 =>
      refine ⟨?_, fun _ _ _ read => by cases read⟩
      have each := atoms _ (searchLast_nonpos searched nonpos)
      simpa [IRExpr.tmps, or_assoc] using each
  | binop op arg1 arg2 =>
      refine ⟨?_, fun _ _ _ read => by cases read⟩
      have each := atoms _ (searchLast_nonpos searched nonpos)
      simpa [IRExpr.tmps, or_assoc] using each
  | mux0X cond expr0 exprX =>
      refine ⟨?_, fun _ _ _ read => by cases read⟩
      have each := atoms _ (searchArgs_nonpos searched nonpos)
      simpa [IRExpr.tmps, or_assoc] using each

/-- The search goes on at the statement of an operand. -/
theorem search_source {searchStmt : Nat → Except Halt Int} {arg : IRAtom}
    {source : Nat}
    (searched : isRecurseAtom tree searchStmt arg = .ok v)
    (led : leadsTo tree true (.atom arg) = .ok (some source)) :
    searchStmt source = .ok v := by
  cases arg with
  | const con => cases led
  | rdTmp tmp =>
      obtain ⟨root, node, searched⟩ := bind_eq_ok.mp searched
      obtain ⟨source', node', same⟩ := leadsTo_rdTmp led
      cases same
      rw [node] at node'
      cases node'
      exact searched

/-- A statement whose expressions are its operands. -/
theorem clear_of_operands {args : List IRAtom}
    (found : tree.irsb.stmts[idx]? = some st)
    (operands : st.searched = args.map .atom)
    {searchStmt : Nat → Except Halt Int}
    (clear : ∀ source v, searchStmt source = .ok v → v ≤ 0 →
      Clear tree source)
    (searched : ∀ arg ∈ args, ∃ v, isRecurseAtom tree searchStmt arg = .ok v ∧
      v ≤ 0) : Clear tree idx := by
  apply clear_of_sources found <;> rw [operands]
  · intro e member
    obtain ⟨arg, _, rfl⟩ := List.mem_map.mp member
    rfl
  · intro e member source led
    obtain ⟨arg, isArg, rfl⟩ := List.mem_map.mp member
    obtain ⟨v, searched, nonpos⟩ := searched arg isArg
    exact clear source v (search_source searched led) nonpos

/-- A search that does not abort looks at everything that is reached. -/
theorem clear_of_isRecurseStmt (left : Nat)
    (searched : isRecurseStmt tree left idx = .ok v) (nonpos : v ≤ 0) :
    Clear tree idx := by
  induction left using Nat.strong_induction_on generalizing idx v with
  | _ left induction =>
    rw [isRecurseStmt.eq_def] at searched
    cases found : tree.irsb.stmts[idx]? with
    | none => simp [found] at searched
    | some st =>
      simp only [found] at searched
      cases left with
      | zero =>
          cases searched
          omega
      | succ left =>
        have clear : ∀ source v, isRecurseStmt tree left source = .ok v →
            v ≤ 0 → Clear tree source :=
          fun source v => induction left (Nat.lt_succ_self left)
        cases st with
        | putI descr ix bias data =>
            cases searched
            omega
        | dirty details =>
            cases searched
            omega
        | comment =>
            cases searched
            omega
        | put offset data => cases searched
        | store endness addr data =>
            apply clear_of_operands found (show _ = [addr, data].map _ from rfl)
              clear
            exact searchArgs_nonpos searched nonpos
        | exit guard =>
            apply clear_of_operands found (show _ = [guard].map _ from rfl)
              clear
            exact List.forall_mem_singleton.mpr ⟨v, searched, nonpos⟩
        | wrTmp tmp data =>
            obtain ⟨temps, registers⟩ := isRecurseExpr_nonpos searched nonpos
            have known := known_of_nonpos searched nonpos
            apply clear_of_sources found
            · intro e member
              rcases List.mem_cons.mp member with rfl | child
              · exact known
              · obtain ⟨arg, _, rfl⟩ := List.mem_map.mp child
                rfl
            · intro e member source led
              cases e with
              | atom arg =>
                  cases arg with
                  | const con => cases led
                  | rdTmp tmp =>
                      obtain ⟨v, searched, nonpos⟩ := temps tmp
                        (mem_tmps_of_child member (List.mem_singleton_self _))
                      exact clear source v (search_source searched led) nonpos
              | get offset ty =>
                  have isData : data = .get offset ty := by
                    rcases List.mem_cons.mp member with same | child
                    · exact same.symm
                    · simp at child
                  obtain ⟨arg, v, written, searched, nonpos⟩ :=
                    registers offset ty source isData led
                  unfold putData at written
                  split at written
                  · next put =>
                      cases written
                      cases left with
                      | zero =>
                          cases searched
                          omega
                      | succ left =>
                          apply clear_of_operands put
                            (show _ = [arg].map _ from rfl)
                            (fun source v => induction left (by omega))
                          exact List.forall_mem_singleton.mpr
                            ⟨v, searched, nonpos⟩
                  · cases written
              | _ => cases led
        | _ =>
            exact clear_of_operands found (show _ = [].map _ from rfl) clear
              nofun

end Ended

section Deep

variable {tree : IrsbTree} {left idx : Nat} {v : Int}

theorem searchArgs_pos {search : IRAtom → Except Halt Int}
    {args : List IRAtom} {res : Int} (before : res ≤ 0)
    (searched : searchArgs search res args = .ok v) (positive : 0 < v) :
    ∃ arg ∈ args, search arg = .ok v := by
  induction args generalizing res with
  | nil =>
      cases searched
      omega
  | cons arg rest induction =>
      obtain ⟨t, first, searched⟩ := bind_eq_ok.mp searched
      split at searched
      · cases searched
        exact ⟨arg, List.mem_cons_self, first⟩
      · next small =>
          obtain ⟨arg', member, later⟩ :=
            induction (by split <;> omega) searched
          exact ⟨arg', List.mem_cons_of_mem _ member, later⟩

private theorem searchLast_pos {search : IRAtom → Except Halt Int}
    {args : List IRAtom} {res : Int} (before : res ≤ 0)
    (searched : searchLast search res args = .ok v) (positive : 0 < v) :
    ∃ arg ∈ args, search arg = .ok v := by
  induction args generalizing res with
  | nil =>
      cases searched
      omega
  | cons arg rest induction =>
      obtain ⟨t, first, searched⟩ := bind_eq_ok.mp searched
      split at searched
      · cases searched
        exact ⟨arg, List.mem_cons_self, first⟩
      · next small =>
          obtain ⟨arg', member, later⟩ := induction (by omega) searched
          exact ⟨arg', List.mem_cons_of_mem _ member, later⟩

/-- It is one of the children that is too deep, or the operand of the write
that a register has its value from. -/
theorem isRecurseExpr_one {search deeper : IRAtom → Except Halt Int}
    {data : IRExpr}
    (searched : isRecurseExpr tree search deeper data = .ok 1) :
    (∃ arg, .atom arg ∈ data :: data.children.map IRExpr.atom ∧
        search arg = .ok 1) ∨
      ∃ source arg, leadsTo tree true data = .ok (some source) ∧
        putData tree source = .ok arg ∧ deeper arg = .ok 1 := by
  have child : (∃ arg ∈ data.children, search arg = .ok 1) →
      ∃ arg, .atom arg ∈ data :: data.children.map IRExpr.atom ∧
        search arg = .ok 1 := by
    rintro ⟨arg, member, found⟩
    exact ⟨arg, List.mem_cons_of_mem _ (List.mem_map_of_mem member), found⟩
  cases data with
  | getI descr ix bias => cases searched
  | ccall cee retty args => cases searched
  | get offset ty =>
      obtain ⟨target, node, searched⟩ := bind_eq_ok.mp searched
      cases target with
      | none => cases searched
      | some source =>
          obtain ⟨arg, written, searched⟩ := bind_eq_ok.mp searched
          exact .inr ⟨source, arg, node, written, searched⟩
  | atom operand => exact .inl ⟨operand, List.mem_cons_self, searched⟩
  | unop op arg => exact .inl (child ⟨arg, List.mem_cons_self, searched⟩)
  | load endness ty addr =>
      exact .inl (child ⟨addr, List.mem_cons_self, searched⟩)
  | mux0X cond expr0 exprX =>
      exact .inl (child (searchArgs_pos le_rfl searched (by decide)))
  | qop op arg1 arg2 arg3 arg4 =>
      exact .inl (child (searchArgs_pos le_rfl searched (by decide)))
  | triop op arg1 arg2 arg3 =>
      exact .inl (child (searchLast_pos le_rfl searched (by decide)))
  | binop op arg1 arg2 =>
      exact .inl (child (searchLast_pos le_rfl searched (by decide)))

/-- A path of so many statements after the first. -/
def PathFrom (tree : IrsbTree) (idx count : Nat) : Prop :=
  ∃ path : List Nat, path.length = count ∧ (idx :: path).IsChain tree.Uses ∧
    ∀ node ∈ idx :: path, node < tree.irsb.stmts.length

theorem PathFrom.cons {source count : Nat}
    (path : PathFrom tree source count) (uses : tree.Uses idx source) :
    PathFrom tree idx (count + 1) := by
  obtain ⟨rest, length, isPath, inside⟩ := path
  refine ⟨source :: rest, by rw [List.length_cons, length],
    .cons_cons uses isPath, ?_⟩
  intro node member
  rcases List.mem_cons.mp member with rfl | later
  · obtain ⟨st, _, found, _⟩ := uses
    exact (List.getElem?_eq_some_iff.mp found).1
  · exact inside node later

theorem PathFrom.operand {searchStmt : Nat → Except Halt Int} {arg : IRAtom}
    {st : IRStmt} {count : Nat} (found : tree.irsb.stmts[idx]? = some st)
    (member : .atom arg ∈ st.searched)
    (searched : isRecurseAtom tree searchStmt arg = .ok 1)
    (path : ∀ source, searchStmt source = .ok 1 →
      PathFrom tree source count) : PathFrom tree idx (count + 1) := by
  cases arg with
  | const con => cases searched
  | rdTmp tmp =>
      obtain ⟨source, node, searched⟩ := bind_eq_ok.mp searched
      apply (path source searched).cons
      refine ⟨st, _, found, member, ?_⟩
      rw [leadsTo, node]
      rfl

private theorem path_of_isRecurseStmt (left : Nat)
    (searched : isRecurseStmt tree left idx = .ok 1) :
    PathFrom tree idx left := by
  induction left using Nat.strong_induction_on generalizing idx with
  | _ left induction =>
    rw [isRecurseStmt.eq_def] at searched
    cases found : tree.irsb.stmts[idx]? with
    | none => simp [found] at searched
    | some st =>
      have bound := (List.getElem?_eq_some_iff.mp found).1
      simp only [found] at searched
      cases left with
      | zero => exact ⟨[], rfl, .singleton idx, by simpa using bound⟩
      | succ left =>
        have path : ∀ source, isRecurseStmt tree left source = .ok 1 →
            PathFrom tree source left :=
          fun source => induction left (Nat.lt_succ_self left)
        cases st with
        | store endness addr data =>
            obtain ⟨arg, member, searched⟩ :=
              searchArgs_pos le_rfl searched (by decide)
            exact .operand found (List.mem_map_of_mem member) searched path
        | exit guard =>
            exact .operand found List.mem_cons_self searched path
        | wrTmp tmp data =>
            obtain ⟨arg, member, searched⟩ |
              ⟨source, arg, led, written, searched⟩ :=
              isRecurseExpr_one searched
            · exact .operand found member searched path
            · have uses : tree.Uses idx source :=
                ⟨_, data, found, List.mem_cons_self, led⟩
              unfold putData at written
              split at written
              · next put =>
                  cases written
                  have inside := (List.getElem?_eq_some_iff.mp put).1
                  cases left with
                  | zero =>
                      exact PathFrom.cons ⟨[], rfl, .singleton source,
                        by simpa using inside⟩ uses
                  | succ left =>
                      apply PathFrom.cons _ uses
                      exact .operand put List.mem_cons_self searched
                        fun source => induction left (by omega)
              · cases written
        | _ => cases searched

end Deep

/-- A search that comes to an end has seen no cycle and nothing unknown, and
one that gets too deep has gone around a cycle. -/
theorem tree_isRecurse_exact (tree : IrsbTree) (root : Nat) :
    (treeIsRecurse tree root = .ok 0 →
        ¬ tree.CyclicFrom root ∧ ¬ tree.UnknownFrom root) ∧
      (tree.irsb.stmts.length ≤ 298 → treeIsRecurse tree root = .ok 1 →
        tree.CyclicFrom root) := by
  constructor
  · intro ended
    have clear := clear_of_isRecurseStmt _ ended le_rfl
    refine ⟨?_, clear.known⟩
    rintro ⟨idx, path, cycle⟩
    exact Paths.not_cycle_of_acc clear.ends path cycle
  · intro small deep
    have depth : min (tree.irsb.stmts.length + 2) isrecurseMaxDepth =
        tree.irsb.stmts.length + 2 := by
      simp only [isrecurseMaxDepth]
      omega
    rw [treeIsRecurse, depth] at deep
    obtain ⟨rest, length, path, inside⟩ := path_of_isRecurseStmt _ deep
    have within : ∀ node ∈ root :: rest,
        node ∈ Finset.range tree.irsb.stmts.length :=
      fun node member => Finset.mem_range.mpr (inside node member)
    apply Paths.cycle_of_long_path path within
    rw [Finset.card_range, length]
    omega

/-- A flag in memory is tested through a register. -/
def spinningBlock : IRSB where
  tyenv := [.I32, .I32, .I1]
  stmts := [.iMark 0x8048000 7,
    .wrTmp 0 (.load .LE .I32 (.const (.U32 0x804A000))), .put 8 (.rdTmp 0),
    .wrTmp 1 (.get 8 .I32), .wrTmp 2 (.unop (.other 0) (.rdTmp 1)),
    .exit (.rdTmp 2)]

/-- What `tree_init` makes of the block. -/
def spinningTree : IrsbTree where
  irsb := spinningBlock
  tstruct := [some 1, some 3, some 4]
  regLoopDefs := [(0x8000B, 2)]
  stmtAddressProps := []
  wasSimplified := false

/-- The registers of this block depend on each other. -/
def countingTree : IrsbTree where
  irsb := countingBlock
  tstruct := [some 1, some 3, some 4]
  regLoopDefs := [(0x3, 6), (0x40007, 2)]
  stmtAddressProps := []
  wasSimplified := false

theorem tree_isRecurse_exact_counting :
    (treeInit countingBlock = .ok countingTree ∧
        treeIsRecurse countingTree 4 = .ok 1 ∧ countingTree.CyclicFrom 4) ∧
      treeInit spinningBlock = .ok spinningTree ∧
        treeIsRecurse spinningTree 5 = .ok 0 ∧
        ¬ spinningTree.CyclicFrom 5 ∧ ¬ spinningTree.UnknownFrom 5 := by
  have deep : treeIsRecurse countingTree 4 = .ok 1 := by decide +kernel
  have ended : treeIsRecurse spinningTree 5 = .ok 0 := by decide +kernel
  refine ⟨⟨by decide +kernel, deep, ?_⟩, by decide +kernel, ended, ?_⟩
  · exact (tree_isRecurse_exact countingTree 4).2 (by decide) deep
  · exact (tree_isRecurse_exact spinningTree 5).1 ended

end Dependency

end HelgrindPlus
