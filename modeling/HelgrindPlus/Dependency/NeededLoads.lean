import HelgrindPlus.Dependency.LoadWalk

/-!
# The loads that are noted

While the walk goes on, the loads that a statement needs are those noted for
it and those that the values on the stack still lead to.  At the end of the
walk, all are noted.
-/

namespace HelgrindPlus

namespace Dependency

open Outcome Relation

/-- The loads that an expression of a statement leads to. -/
def IrsbTree.ExprNeeds (tree : IrsbTree) (idx : Nat) (e : IRExpr)
    (load : Nat) : Prop :=
  if e.isLoad then load = idx
  else ∃ e' ∈ e :: e.children.map .atom, ∃ source,
    leadsTo tree true e' = .ok (some source) ∧ tree.Needs source load

/-- The loads that a value on the stack leads to. -/
def TreeIteratValue.Owes (tree : IrsbTree) (val : TreeIteratValue)
    (load : Nat) : Prop :=
  if val.typ = .stmt ∧ val.stmtDone = false then
    tree.Needs val.stmtIdx load
  else
    ∃ e, some e ∈ val.subExpr ∧ tree.ExprNeeds val.stmtIdx e load

def TreeIteratValue.isLoad (val : TreeIteratValue) : Bool :=
  match val.expr with
  | some e => e.isLoad
  | none => false

/-- The values from the bottom on have not come through a load. -/
def LoadFree (stack : List TreeIteratValue) : Prop :=
  ∀ val ∈ stack, val.isLoad = false

/-- The loads that the stack leads to and not through a load. -/
def StackOwes (tree : IrsbTree) (load : Nat) : List TreeIteratValue → Prop
  | [] => False
  | val :: rest =>
      (LoadFree (val :: rest) ∧ val.Owes tree load) ∨
        StackOwes tree load rest

section Owes

variable {tree : IrsbTree} {idx load : Nat} {st : IRStmt} {e : IRExpr}
  {val top : TreeIteratValue} {stack rest : List TreeIteratValue}

private theorem isLoad_iff (found : tree.irsb.stmts[idx]? = some st)
    (walked : st.walked = e :: e.children.map .atom) :
    tree.isLoad idx ↔ e.isLoad = true := by
  constructor
  · rintro ⟨tmp, endness, ty, addr, found'⟩
    rw [found] at found'
    cases found'
    cases walked
    rfl
  · intro isLoad
    cases st with
    | wrTmp tmp data =>
        cases walked
        cases e with
        | load endness ty addr => exact ⟨tmp, endness, ty, addr, found⟩
        | _ => cases isLoad
    | put offset data => cases walked; cases isLoad
    | store endness addr data => cases walked; cases isLoad
    | exit guard => cases walked; cases isLoad
    | _ => cases walked

/-- A statement needs what its expression leads to. -/
theorem needs_iff (found : tree.irsb.stmts[idx]? = some st)
    (walked : st.walked = e :: e.children.map .atom) :
    tree.Needs idx load ↔ tree.ExprNeeds idx e load := by
  have loads := isLoad_iff found walked
  unfold IrsbTree.ExprNeeds
  split
  · next isLoad =>
      constructor
      · intro needs
        cases needs with
        | load => rfl
        | read other => exact absurd (loads.mpr isLoad) other
      · rintro rfl
        exact .load (loads.mpr isLoad)
  · next other =>
      have other : ¬ tree.isLoad idx := fun isLoad => other (loads.mp isLoad)
      constructor
      · intro needs
        cases needs with
        | load isLoad => exact absurd isLoad other
        | read _ reads needs =>
            obtain ⟨st', e', found', member, led⟩ := reads
            rw [found] at found'
            cases found'
            exact ⟨e', walked ▸ member, _, led, needs⟩
      · rintro ⟨e', member, source, led, needs⟩
        exact .read other ⟨st, e', found, walked ▸ member, led⟩ needs

/-- A value that is done with leads nowhere. -/
theorem TreeIteratValue.Finished.owes (finished : val.Finished) :
    ¬ val.Owes tree load := by
  unfold TreeIteratValue.Owes
  have visited : ¬ (val.typ = .stmt ∧ val.stmtDone = false) := by
    rcases finished.typed with typ | ⟨_, done⟩ <;> simp [*]
  rw [if_neg visited]
  rintro ⟨e, member, _⟩
  have none := nextChild_eq_none.mp finished.noChild _ member
  cases none

theorem stackOwes_finished {finished : List TreeIteratValue}
    (all : ∀ done ∈ finished, done.Finished) :
    StackOwes tree load (finished ++ stack) ↔ StackOwes tree load stack := by
  induction finished with
  | nil => rfl
  | cons done finished induction =>
      obtain ⟨first, all⟩ := List.forall_mem_cons.mp all
      rw [List.cons_append, StackOwes, induction all]
      constructor
      · rintro (⟨_, owes⟩ | later)
        · exact absurd owes first.owes
        · exact later
      · exact .inr

/-- What the operands of an expression lead to. -/
theorem exprNeeds_atom {operand : IRAtom} :
    tree.ExprNeeds idx (.atom operand) load ↔
      ∃ source, leadsTo tree true (.atom operand) = .ok (some source) ∧
        tree.Needs source load := by
  simp [IrsbTree.ExprNeeds, IRExpr.isLoad, IRExpr.children]

end Owes

def loadEntries : List TreeIteratValue → List LoadOnPath
  | [] => []
  | val :: rest =>
      if val.isLoad then ⟨val.stmtIdx, rest.length⟩ :: loadEntries rest
      else loadEntries rest

section Loads

variable {stack finished : List TreeIteratValue}

theorem loadEntries_eq_nil : loadEntries stack = [] ↔ LoadFree stack := by
  induction stack with
  | nil => simp [loadEntries, LoadFree]
  | cons val rest induction =>
      unfold LoadFree at induction ⊢
      rw [loadEntries, List.forall_mem_cons, ← induction]
      split <;> simp_all

private theorem loadEntries_depth_lt :
    ∀ load ∈ loadEntries stack, load.depth < stack.length := by
  induction stack with
  | nil => simp [loadEntries]
  | cons val rest induction =>
      intro load member
      rw [loadEntries] at member
      split at member
      · rcases List.mem_cons.mp member with rfl | member
        · exact Nat.lt_succ_self _
        · exact Nat.lt_succ_of_lt (induction load member)
      · exact Nat.lt_succ_of_lt (induction load member)

theorem mem_loadEntries {load : LoadOnPath}
    (member : load ∈ loadEntries stack) :
    ∃ val ∈ stack, val.isLoad = true ∧ val.stmtIdx = load.stmtIdx := by
  induction stack with
  | nil => simp [loadEntries] at member
  | cons val rest induction =>
      have later : load ∈ loadEntries rest → ∃ val' ∈ val :: rest,
          val'.isLoad = true ∧ val'.stmtIdx = load.stmtIdx := by
        intro member
        obtain ⟨val', inside, isLoad⟩ := induction member
        exact ⟨val', List.mem_cons_of_mem _ inside, isLoad⟩
      rw [loadEntries] at member
      split at member
      · next isLoad =>
          rcases List.mem_cons.mp member with rfl | member
          · exact ⟨val, List.mem_cons_self, isLoad, rfl⟩
          · exact later member
      · exact later member

theorem popLoads_below {curDepth : Nat} (below : stack.length ≤ curDepth) :
    popLoads curDepth (loadEntries stack) = loadEntries stack := by
  cases entries : loadEntries stack with
  | nil => rfl
  | cons load rest =>
      have depth := loadEntries_depth_lt load
        (entries ▸ List.mem_cons_self)
      rw [popLoads, if_neg (by omega)]

/-- The entries of the values that are off the stack are taken off, also if
the new value is one higher than the first of them, unless that is a load. -/
theorem popLoads_finished {curDepth : Nat} (below : stack.length ≤ curDepth)
    (near : curDepth = stack.length ∨ curDepth = stack.length + 1 ∧
      ∀ val, finished.getLast? = some val → val.isLoad = false) :
    popLoads curDepth (loadEntries (finished ++ stack)) =
      loadEntries stack := by
  induction finished with
  | nil => exact popLoads_below below
  | cons val finished induction =>
      have later := induction (near.imp_right fun ⟨depth, first⟩ => by
        refine ⟨depth, fun val' last => first val' ?_⟩
        rw [List.getLast?_cons, last]
        rfl)
      rw [List.cons_append, loadEntries]
      split
      · next isLoad =>
          have stale : curDepth ≤ (finished ++ stack).length := by
            rw [List.length_append]
            rcases near with depth | ⟨depth, first⟩
            · omega
            · cases finished with
              | nil =>
                  rw [first val rfl] at isLoad
                  cases isLoad
              | cons _ _ =>
                  simp only [List.length_cons]
                  omega
          rw [popLoads, if_pos stale, later]
      · exact later

end Loads

section Step

variable {tree : IrsbTree} {root idx : Nat} {iter iter' : TreeIterator}
  {val top : TreeIteratValue} {stack rest finished : List TreeIteratValue}
  {path : List Nat} {e : IRExpr} {subExpr : List (Option IRExpr)}

theorem StmtValue.not_isLoad (value : StmtValue tree idx val) :
    val.isLoad = false := by
  rw [TreeIteratValue.isLoad, value.expr]

theorem Grounded.isLoad (grounded : Grounded tree root stack path)
    (member : val ∈ stack) (isLoad : val.isLoad = true) :
    tree.isLoad val.stmtIdx := by
  induction grounded with
  | root value =>
      rw [List.mem_singleton.mp member, value.not_isLoad] at isLoad
      cases isLoad
  | stmt below reads value induction =>
      rcases List.mem_cons.mp member with rfl | member
      · rw [value.not_isLoad] at isLoad
        cases isLoad
      · exact induction member
  | data below done spent value induction =>
      rcases List.mem_cons.mp member with rfl | member
      · obtain ⟨tmp, data, assigned, expr, _⟩ := value.assigned
        rw [TreeIteratValue.isLoad, expr] at isLoad
        cases data with
        | load endness ty addr =>
            exact ⟨tmp, endness, ty, addr, value.stmtIdx ▸ assigned⟩
        | _ => cases isLoad
      · exact induction member

theorem Walking.isLoad (walking : Walking tree root stack)
    (member : val ∈ stack) (isLoad : val.isLoad = true) :
    tree.isLoad val.stmtIdx := by
  cases walking with
  | onPath grounded => exact grounded.isLoad member isLoad
  | atLeaf leaf grounded =>
      rcases List.mem_cons.mp member with rfl | member
      · unfold TreeIteratValue.isLoad at isLoad
        split at isLoad
        · next e found =>
            rw [leaf.noLoad e found] at isLoad
            cases isLoad
        · cases isLoad
      · exact grounded.isLoad member isLoad

theorem Grounded.tail (grounded : Grounded tree root (val :: top :: rest) path) :
    ∃ path', Grounded tree root (top :: rest) path' := by
  cases grounded with
  | stmt below reads value => exact ⟨_, below⟩
  | data below done spent value => exact ⟨_, below⟩

theorem Grounded.drop (grounded : Grounded tree root stack path)
    (split : stack = finished ++ top :: rest) :
    ∃ path', Grounded tree root (top :: rest) path' := by
  induction finished generalizing stack path with
  | nil =>
      subst split
      exact ⟨path, grounded⟩
  | cons val finished induction =>
      subst split
      cases finished with
      | nil => exact grounded.tail
      | cons val' finished =>
          obtain ⟨path', below⟩ := grounded.tail
          exact induction below rfl

/-- A value with something left is on the path. -/
theorem Walking.drop (walking : Walking tree root (finished ++ top :: rest))
    (busy : ¬ top.Finished) :
    ∃ path, Grounded tree root (top :: rest) path := by
  generalize split : finished ++ top :: rest = stack at walking
  cases walking with
  | onPath grounded => exact grounded.drop split.symm
  | @atLeaf val stack path leaf grounded =>
      cases finished with
      | nil =>
          cases split
          exact absurd ⟨.inl leaf.typ, by rw [leaf.childless]; rfl⟩ busy
      | cons val' finished =>
          cases split
          exact grounded.drop rfl

/-- Above a value that has a child left is no load. -/
theorem Walking.above_busy
    (walking : Walking tree root (finished ++ top :: rest))
    (child : some e ∈ top.subExpr) :
    ∀ val, finished.getLast? = some val → val.isLoad = false := by
  intro val last
  obtain ⟨before, rfl⟩ := List.getLast?_eq_some_iff.mp last
  rw [List.append_assoc, List.singleton_append] at walking
  have onPath : ∀ path, Grounded tree root (val :: top :: rest) path →
      val.isLoad = false := by
    intro path grounded
    cases grounded with
    | stmt below reads value => exact value.not_isLoad
    | data below done spent value =>
        cases spent _ child
  generalize split : before ++ val :: top :: rest = stack at walking
  cases walking with
  | onPath grounded =>
      obtain ⟨path, grounded⟩ := grounded.drop split.symm
      exact onPath path grounded
  | @atLeaf val' stack path leaf grounded =>
      cases before with
      | nil =>
          cases split
          unfold TreeIteratValue.isLoad
          split
          · next e' found => exact leaf.noLoad e' found
          · rfl
      | cons val'' before =>
          cases split
          obtain ⟨path, grounded⟩ := grounded.drop rfl
          exact onPath path grounded

theorem Grounded.stmtValue
    (grounded : Grounded tree root (top :: rest) (idx :: path))
    (typ : top.typ = .stmt) : StmtValue tree idx top := by
  cases grounded with
  | root value => exact value
  | stmt below reads value => exact value
  | data below done spent value =>
      rw [value.typ] at typ
      cases typ

/-- The value on the top of the path may be replaced. -/
theorem Grounded.update {top' : TreeIteratValue}
    (grounded : Grounded tree root (top :: rest) (idx :: path))
    (stmt : top.typ = .stmt → StmtValue tree idx top')
    (expr : ExprValue tree idx top → ExprValue tree idx top') :
    Grounded tree root (top' :: rest) (idx :: path) := by
  cases grounded with
  | root value => exact .root (stmt value.typ)
  | stmt below reads value => exact .stmt below reads (stmt value.typ)
  | data below done spent value => exact .data below done spent (expr value)

/-- The value of a statement after it is returned. -/
theorem StmtValue.enter (value : StmtValue tree idx top) (depth : Nat) :
    StmtValue tree idx { top with stmtDone := true, curDepth := depth } := by
  obtain ⟨st, e, found, walked, noStore, left⟩ := value.child
  exact ⟨value.typ, value.stmtIdx, value.expr, st, e, found, walked, noStore,
    left.imp_right fun ⟨_, spent⟩ => ⟨rfl, spent⟩⟩

/-- The value of a statement after its expression is taken. -/
theorem StmtValue.spend (value : StmtValue tree idx top)
    (done : top.stmtDone = true)
    (next : nextChild top.subExpr = some (e, subExpr)) :
    StmtValue tree idx { top with subExpr := subExpr } ∧ subExpr = [none] := by
  obtain ⟨st, e', found, walked, noStore, whole | ⟨_, spent⟩⟩ := value.child
  · rw [whole] at next
    cases next
    exact ⟨⟨value.typ, value.stmtIdx, value.expr, st, e, found, walked,
      noStore, .inr ⟨done, rfl⟩⟩, rfl⟩
  · rw [spent] at next
    cases next

theorem ExprValue.spend (value : ExprValue tree idx top)
    (next : nextChild top.subExpr = some (e, subExpr)) :
    ExprValue tree idx { top with subExpr := subExpr } := by
  obtain ⟨tmp, data, assigned, expr, operands⟩ := value.assigned
  refine ⟨value.typ, value.stmtIdx, tmp, data, assigned, expr, ?_⟩
  intro child member
  exact operands child ((some_mem_of_nextChild next child).mpr (.inr member))

theorem Grounded.spend
    (grounded : Grounded tree root (top :: rest) (idx :: path))
    (typed : top.typ = .expr ∨ top.typ = .stmt ∧ top.stmtDone = true)
    (next : nextChild top.subExpr = some (e, subExpr)) :
    Grounded tree root ({ top with subExpr := subExpr } :: rest)
      (idx :: path) := by
  apply grounded.update
  · intro typ
    rcases typed with other | ⟨_, done⟩
    · rw [typ] at other
      cases other
    · exact ((grounded.stmtValue typ).spend done next).1
  · exact fun value => value.spend next

/-- What holds after a value is returned: where the walk is, the loads it came
through, and what it still leads to. -/
structure Stepped (tree : IrsbTree) (root : Nat) (before : TreeIterator)
    (after : TreeIterator) (val : TreeIteratValue) : Prop where
  size : after.stackSize = before.stackSize
  loops : after.loopGetPut = before.loopGetPut
  single : after.loopLoadStore = before.loopLoadStore
  walking : Walking tree root after.stack
  noStore : ∀ st, val.typ = .stmt → tree.irsb.stmts[val.stmtIdx]? = some st →
    st.isStore = false
  exprLoad : val.isLoad = true → val.typ = .expr
  stack : ∃ rest, after.stack = val :: rest ∧ val.curDepth = rest.length ∧
    popLoads val.curDepth (loadEntries before.stack) = loadEntries rest ∧
    ∀ load, StackOwes tree load before.stack ↔
      (val.isLoad = true ∧ LoadFree rest ∧ load = val.stmtIdx) ∨
        StackOwes tree load after.stack

/-- The walk enters a statement. -/
theorem Stepped.enter (walking : Walking tree root iter.stack)
    (split : iter.stack = finished ++ top :: rest)
    (all : ∀ done ∈ finished, done.Finished)
    (isStmt : top.typ = .stmt) (fresh : top.stmtDone = false) :
    let val := { top with stmtDone := true, curDepth := rest.length }
    Stepped tree root iter { iter with stack := val :: rest } val := by
  have busy : ¬ top.Finished := by
    intro done
    rcases done.typed with typ | ⟨_, done⟩
    · rw [isStmt] at typ
      cases typ
    · rw [fresh] at done
      cases done
  rw [split] at walking
  obtain ⟨path, grounded⟩ := walking.drop busy
  obtain ⟨idx, earlier, rfl⟩ := grounded.path_cons
  have value := grounded.stmtValue isStmt
  have entered := value.enter rest.length
  obtain ⟨st, e, found, walked, noStore, left⟩ := value.child
  have whole : top.subExpr = [some e] := by
    rcases left with whole | ⟨done, _⟩
    · exact whole
    · rw [fresh] at done
      cases done
  have noLoad := entered.not_isLoad
  refine ⟨rfl, rfl, rfl, ?_, ?_, ?_, rest, rfl, rfl, ?_, fun load => ?_⟩
  · exact .onPath (grounded.update (fun _ => entered) fun other => by
      have typ := other.typ
      rw [isStmt] at typ
      cases typ)
  · intro st' _ found'
    rw [show top.stmtIdx = idx from value.stmtIdx, found] at found'
    cases found'
    exact noStore
  · intro isLoad
    rw [noLoad] at isLoad
    cases isLoad
  · rw [split, ← List.singleton_append, ← List.append_assoc]
    exact popLoads_finished le_rfl (.inl rfl)
  · have free : LoadFree (top :: rest) ↔
        LoadFree ({ top with stmtDone := true, curDepth := rest.length } ::
          rest) := by
      simp only [LoadFree, List.forall_mem_cons]
      exact Iff.rfl
    have owes : top.Owes tree load ↔
        ({ top with stmtDone := true, curDepth := rest.length } :
          TreeIteratValue).Owes tree load := by
      simp only [TreeIteratValue.Owes, isStmt, fresh, and_self, if_true,
        Bool.true_eq_false, and_false, if_false, whole, value.stmtIdx,
        List.mem_singleton, Option.some.injEq]
      rw [needs_iff found walked]
      simp
    rw [split, stackOwes_finished all, StackOwes, StackOwes, free, owes]
    constructor
    · exact .inr
    · rintro (⟨isLoad, _⟩ | later)
      · rw [noLoad] at isLoad
        cases isLoad
      · exact later

/-- An expression with operands, or a load, is what a statement assigns. -/
theorem Grounded.data_of_child
    (grounded : Grounded tree root (top :: rest) (idx :: path))
    (next : nextChild top.subExpr = some (e, subExpr))
    (inner : e.children ≠ [] ∨ e.isLoad = true) :
    top.typ = .stmt ∧ ∃ tmp,
      tree.irsb.stmts[idx]? = some (.wrTmp tmp e) := by
  have child : some e ∈ top.subExpr :=
    (some_mem_of_nextChild next e).mpr (.inl rfl)
  have noAtom : ∀ operand, e ≠ .atom operand := by
    rintro operand rfl
    rcases inner with children | isLoad
    · exact children rfl
    · cases isLoad
  have ofStmt : StmtValue tree idx top → top.typ = .stmt ∧ ∃ tmp,
      tree.irsb.stmts[idx]? = some (.wrTmp tmp e) := by
    intro value
    obtain ⟨st, found, walked, _⟩ := value.child_walked child
    refine ⟨value.typ, ?_⟩
    cases st with
    | wrTmp tmp data =>
        cases walked
        exact ⟨tmp, found⟩
    | put offset data => cases walked; exact absurd rfl (noAtom data)
    | store endness addr data => cases walked; exact absurd rfl (noAtom addr)
    | exit guard => cases walked; exact absurd rfl (noAtom guard)
    | _ => cases walked
  cases grounded with
  | root value => exact ofStmt value
  | stmt below reads value => exact ofStmt value
  | data below done spent value =>
      obtain ⟨tmp, data, _, _, operands⟩ := value.assigned
      obtain ⟨operand, _, same⟩ := List.mem_map.mp (operands e child)
      exact absurd same.symm (noAtom operand)

theorem Grounded.top_stmtIdx
    (grounded : Grounded tree root (top :: rest) (idx :: path)) :
    top.stmtIdx = idx := by
  cases grounded with
  | root value => exact value.stmtIdx
  | stmt below reads value => exact value.stmtIdx
  | data below done spent value => exact value.stmtIdx

theorem leadsTo_inner {loopGetPut : Bool} {target : Option Nat}
    (inner : e.children ≠ [] ∨ e.isLoad = true)
    (led : leadsTo tree loopGetPut e = .ok target) : target = none := by
  cases e with
  | atom operand => simp [IRExpr.children, IRExpr.isLoad] at inner
  | get offset ty => simp [IRExpr.children, IRExpr.isLoad] at inner
  | _ => cases led; rfl

private theorem childValue_isLoad (depth : Nat) :
    (childValue top e depth).isLoad = e.isLoad := rfl

/-- What the value of an expression leads to is what its operands do. -/
theorem childValue_owes (depth load : Nat) :
    (childValue top e depth).Owes tree load ↔
      ∃ operand ∈ e.children, ∃ source,
        leadsTo tree true (.atom operand) = .ok (some source) ∧
          tree.Needs source load := by
  have typ : ¬ ((childValue top e depth).typ = .stmt ∧
      (childValue top e depth).stmtDone = false) := by
    simp [childValue, exprValue]
  rw [TreeIteratValue.Owes, if_neg typ]
  constructor
  · rintro ⟨child, member, needs⟩
    obtain ⟨operand, inside, same⟩ := List.mem_map.mp member
    cases same
    exact ⟨operand, inside, exprNeeds_atom.mp needs⟩
  · rintro ⟨operand, inside, source⟩
    exact ⟨.atom operand, List.mem_map.mpr ⟨operand, inside, rfl⟩,
      exprNeeds_atom.mpr source⟩

/-- A child that is no leaf is put on the path over its statement. -/
theorem Walking.child (walked : WalkedFrom tree root)
    (grounded : Grounded tree root (top :: rest) (idx :: path))
    (typed : top.typ = .expr ∨ top.typ = .stmt ∧ top.stmtDone = true)
    (next : nextChild top.subExpr = some (e, subExpr))
    {below : List TreeIteratValue} (found : under tree true e = .ok below)
    (depth : Nat) :
    Walking tree root (childValue top e depth ::
      (below ++ { top with subExpr := subExpr } :: rest)) := by
  have kept := grounded.spend typed next
  have leaf : ¬ (e.children ≠ [] ∨ e.isLoad = true) →
      LeafValue (childValue top e depth) := by
    intro outer
    simp only [ne_eq, not_or, not_not, Bool.not_eq_true] at outer
    refine ⟨rfl, ?_, fun e' same => ?_⟩
    · simp [childValue, exprValue, outer.1]
    · cases same
      exact outer.2
  rcases under_eq_ok found with
    ⟨led, rfl⟩ | ⟨source, entered, led, entering, rfl⟩
  · by_cases inner : e.children ≠ [] ∨ e.isLoad = true
    · obtain ⟨isStmt, tmp, assigned⟩ := grounded.data_of_child next inner
      have done : top.stmtDone = true := by
        rcases typed with other | ⟨_, done⟩
        · rw [isStmt] at other
          cases other
        · exact done
      have spent := ((grounded.stmtValue isStmt).spend done next).2
      refine .onPath (.data kept ⟨isStmt, done⟩ ?_
        ⟨rfl, grounded.top_stmtIdx, tmp, e, assigned, rfl, ?_⟩)
      · rw [show ({ top with subExpr := subExpr } : TreeIteratValue).subExpr =
          [none] from spent]
        simp
      · intro child member
        obtain ⟨operand, inside, same⟩ := List.mem_map.mp member
        cases same
        exact List.mem_map.mpr ⟨operand, inside, rfl⟩
    · exact .atLeaf (leaf inner) kept
  · have outer : ¬ (e.children ≠ [] ∨ e.isLoad = true) := by
      intro inner
      cases leadsTo_inner inner led
    obtain ⟨entered', entering', value, _⟩ := walked.shaped.enters led
    rw [entering] at entering'
    cases entering'
    have child : some e ∈ top.subExpr :=
      (some_mem_of_nextChild next e).mpr (.inl rfl)
    obtain ⟨st, found', member⟩ := grounded.child_walked child
    exact .atLeaf (leaf outer)
      (.stmt kept ⟨st, e, found', member, led⟩ value)

private theorem or_of_and_or {free new left later : Prop} :
    (free ∧ (new ∨ left)) ∨ later ↔ (free ∧ new) ∨ (free ∧ left) ∨ later := by
  tauto

private theorem exists_leads_cons {load : Nat} :
    (∃ e' ∈ e :: e.children.map IRExpr.atom, ∃ source,
        leadsTo tree true e' = .ok (some source) ∧ tree.Needs source load) ↔
      (∃ source, leadsTo tree true e = .ok (some source) ∧
        tree.Needs source load) ∨
      ∃ operand ∈ e.children, ∃ source,
        leadsTo tree true (.atom operand) = .ok (some source) ∧
          tree.Needs source load := by
  rw [List.exists_mem_cons_iff]
  simp only [List.mem_map, exists_exists_and_eq_and]

/-- What the stack leads to when a child was taken. -/
theorem stackOwes_child (shaped : tree.Shaped) (stmtIdx : top.stmtIdx = idx)
    (typed : top.typ = .expr ∨ top.typ = .stmt ∧ top.stmtDone = true)
    (next : nextChild top.subExpr = some (e, subExpr))
    {below : List TreeIteratValue} (found : under tree true e = .ok below)
    (depth load : Nat) :
    let top' := { top with subExpr := subExpr }
    StackOwes tree load (top :: rest) ↔
      (e.isLoad = true ∧ LoadFree (below ++ top' :: rest) ∧ load = idx) ∨
        StackOwes tree load
          (childValue top e depth :: (below ++ top' :: rest)) := by
  intro top'
  have visited : ¬ (top.typ = .stmt ∧ top.stmtDone = false) := by
    rcases typed with typ | ⟨_, done⟩ <;> simp [*]
  have free : LoadFree (top :: rest) ↔ LoadFree (top' :: rest) := by
    simp only [LoadFree, List.forall_mem_cons]
    exact Iff.rfl
  have owes : top.Owes tree load ↔
      tree.ExprNeeds idx e load ∨ top'.Owes tree load := by
    have visited' : ¬ (top'.typ = .stmt ∧ top'.stmtDone = false) := visited
    rw [TreeIteratValue.Owes, if_neg visited, TreeIteratValue.Owes,
      if_neg visited', stmtIdx]
    simp only [some_mem_of_nextChild next]
    constructor
    · rintro ⟨child, rfl | member, needs⟩
      · exact .inl needs
      · exact .inr ⟨child, member, stmtIdx ▸ needs⟩
    · rintro (needs | ⟨child, member, needs⟩)
      · exact ⟨e, .inl rfl, needs⟩
      · exact ⟨child, .inr member, stmtIdx ▸ needs⟩
  rw [StackOwes, StackOwes, free, owes, childValue_owes]
  rcases under_eq_ok found with
    ⟨led, rfl⟩ | ⟨source, entered, led, entering, rfl⟩
  · simp only [List.nil_append, StackOwes]
    have isFree : LoadFree (childValue top e depth :: top' :: rest) ↔
        e.isLoad = false ∧ LoadFree (top' :: rest) :=
      List.forall_mem_cons
    rw [isFree, or_of_and_or]
    unfold IrsbTree.ExprNeeds
    cases e.isLoad with
    | true =>
        simp only [if_true, true_and, Bool.true_eq_false, false_and, false_or]
    | false =>
        simp only [Bool.false_eq_true, if_false, true_and, false_and, false_or,
          exists_leads_cons, led, Except.ok.injEq, reduceCtorEq, exists_false]
  · obtain ⟨entered', entering', value, fresh⟩ := shaped.enters led
    rw [entering] at entering'
    cases entering'
    have outer : e.isLoad = false := by
      by_contra isLoad
      cases leadsTo_inner (.inr (Bool.eq_true_of_not_eq_false isLoad)) led
    simp only [List.singleton_append, StackOwes]
    have isFree : LoadFree (childValue top e depth :: entered :: top' :: rest) ↔
        LoadFree (top' :: rest) := by
      simp [LoadFree, childValue_isLoad, outer, value.not_isLoad]
    have isFree' : LoadFree (entered :: top' :: rest) ↔
        LoadFree (top' :: rest) := by
      simp [LoadFree, value.not_isLoad]
    have needs : entered.Owes tree load ↔ tree.Needs source load := by
      rw [TreeIteratValue.Owes, if_pos ⟨value.typ, fresh⟩, value.stmtIdx]
    rw [isFree, isFree', needs]
    have leaf : e.children = [] := by
      by_contra inner
      cases leadsTo_inner (.inl inner) led
    simp only [IrsbTree.ExprNeeds, outer, Bool.false_eq_true, if_false,
      false_and, false_or, leaf, List.map_nil, List.mem_singleton,
      exists_eq_left, led, Except.ok.injEq, Option.some.injEq, exists_eq_left',
      List.not_mem_nil, exists_false, and_false, or_of_and_or]

/-- The walk goes to a child. -/
theorem Stepped.child (walked : WalkedFrom tree root)
    (loops : iter.loopGetPut = true)
    (walking : Walking tree root iter.stack)
    (split : iter.stack = finished ++ top :: rest)
    (all : ∀ done ∈ finished, done.Finished)
    (typed : top.typ = .expr ∨ top.typ = .stmt ∧ top.stmtDone = true)
    (next : nextChild top.subExpr = some (e, subExpr))
    (descended : descend tree
      { iter with stack := { top with subExpr := subExpr } :: rest } top e =
        .ok (iter', some val))
    (typ : val.typ = .expr) :
    Stepped tree root iter iter' val := by
  obtain ⟨below, found, _, _, _, rfl, rfl⟩ := descend_expr descended typ
  have left : some e ∈ top.subExpr :=
    (some_mem_of_nextChild next e).mpr (.inl rfl)
  have busy : ¬ top.Finished := by
    intro done
    cases nextChild_eq_none.mp done.noChild _ left
  have found : under tree true e = .ok below := by
    rw [← loops]
    exact found
  rw [split] at walking
  obtain ⟨path, grounded⟩ := walking.drop busy
  obtain ⟨idx, earlier, rfl⟩ := grounded.path_cons
  refine ⟨rfl, rfl, rfl, Walking.child walked grounded typed next found _,
    ?_, ?_, _, rfl, rfl, ?_, fun load => ?_⟩
  · intro st isStmt
    cases isStmt
  · exact fun _ => rfl
  · have above := walking.above_busy left
    rw [split]
    rcases under_eq_ok found with
      ⟨led, rfl⟩ | ⟨source, entered, led, entering, rfl⟩
    · exact @popLoads_finished (top :: rest) _ _ le_rfl (.inl rfl)
    · obtain ⟨entered', entering', value, _⟩ := walked.shaped.enters led
      rw [entering] at entering'
      cases entering'
      rw [List.singleton_append, loadEntries, value.not_isLoad]
      exact @popLoads_finished (top :: rest) _ _ (Nat.le_succ _)
        (.inr ⟨rfl, above⟩)
  · rw [split, stackOwes_finished all]
    exact stackOwes_child walked.shaped rfl typed next found _ load

/-- One step of the walk. -/
theorem Walking.step (walked : WalkedFrom tree root)
    (loops : iter.loopGetPut = true)
    (walking : Walking tree root iter.stack)
    (moved : treeIteratorNext tree iter = .ok (iter', some val))
    (goesOn : val.typ = .stmt ∨ val.typ = .expr) :
    Stepped tree root iter iter' val := by
  have walks : val.typ ≠ .recurse := by
    rcases goesOn with typ | typ <;> rw [typ] <;> nofun
  obtain ⟨finished, top, rest, split, all, _, yields⟩ :=
    treeIteratorPop_yields moved walks
  cases yields with
  | enter isStmt fresh => exact Stepped.enter walking split all isStmt fresh
  | child typed next descended =>
      have typ : val.typ = .expr :=
        goesOn.resolve_left (descend_typ descended)
      exact Stepped.child walked loops walking split all typed next descended
        typ

end Step

/-- From the statement the walk comes to an expression without a node. -/
def IrsbTree.StmtStuck (tree : IrsbTree) (idx : Nat) : Prop :=
  ∃ source st e, ReflTransGen tree.Reads idx source ∧
    tree.irsb.stmts[source]? = some st ∧ e ∈ st.walked ∧
    ∀ target, leadsTo tree true e ≠ .ok target

def IrsbTree.ExprStuck (tree : IrsbTree) (e : IRExpr) : Prop :=
  ∃ e' ∈ e :: e.children.map .atom,
    (∀ target, leadsTo tree true e' ≠ .ok target) ∨
      ∃ source, leadsTo tree true e' = .ok (some source) ∧
        tree.StmtStuck source

def TreeIteratValue.Stuck (tree : IrsbTree) (val : TreeIteratValue) : Prop :=
  if val.typ = .stmt ∧ val.stmtDone = false then tree.StmtStuck val.stmtIdx
  else ∃ e, some e ∈ val.subExpr ∧ tree.ExprStuck e

section Stuck

variable {tree : IrsbTree} {root idx : Nat} {iter iter' : TreeIterator}
  {val top : TreeIteratValue} {stack rest finished : List TreeIteratValue}
  {path : List Nat} {st : IRStmt} {e : IRExpr}
  {subExpr : List (Option IRExpr)}

theorem nodedFrom_iff : tree.NodedFrom root ↔ ¬ tree.StmtStuck root := by
  constructor
  · rintro noded ⟨source, st, e, reached, found, member, stuck⟩
    obtain ⟨target, led⟩ := noded source st reached found e member
    exact stuck target led
  · intro free idx st reached found e member
    by_contra stuck
    exact free ⟨idx, st, e, reached, found, member,
      fun target led => stuck ⟨target, led⟩⟩

theorem StmtStuck.expr (found : tree.irsb.stmts[idx]? = some st)
    (walked : st.walked = e :: e.children.map .atom)
    (stuck : tree.StmtStuck idx) : tree.ExprStuck e := by
  obtain ⟨source, st', e', reached, found', member, failed⟩ := stuck
  rcases reached.cases_head with rfl | ⟨next, reads, reached⟩
  · rw [found] at found'
    cases found'
    exact ⟨e', walked ▸ member, .inl failed⟩
  · obtain ⟨st'', e'', found'', member', led⟩ := reads
    rw [found] at found''
    cases found''
    exact ⟨e'', walked ▸ member', .inr ⟨next, led,
      source, st', e', reached, found', member, failed⟩⟩

theorem TreeIteratValue.Finished.not_stuck (finished : val.Finished) :
    ¬ val.Stuck tree := by
  unfold TreeIteratValue.Stuck
  have visited : ¬ (val.typ = .stmt ∧ val.stmtDone = false) := by
    rcases finished.typed with typ | ⟨_, done⟩ <;> simp [*]
  rw [if_neg visited]
  rintro ⟨e, member, _⟩
  cases nextChild_eq_none.mp finished.noChild _ member

/-- A walk that is over has come to every expression. -/
theorem finished_of_pop
    (popped : treeIteratorPop tree iter stack = .ok (iter', none)) :
    ∀ val ∈ stack, val.Finished := by
  induction stack with
  | nil => simp
  | cons top rest induction =>
      unfold treeIteratorPop at popped
      split at popped
      · cases popped
      · split at popped
        · cases popped
        · next typed =>
            split at popped
            · cases popped
            · next visited =>
                cases next : nextChild top.subExpr with
                | none =>
                    simp only [next] at popped
                    exact List.forall_mem_cons.mpr
                      ⟨⟨returned_of typed visited, next⟩, induction popped⟩
                | some child =>
                    simp only [next] at popped
                    obtain ⟨⟨iter₁, val⟩, _, done⟩ := bind_eq_ok.mp popped
                    dsimp only at done
                    split at done <;> cases done

/-- An expression that is stuck is still ahead below or among its operands. -/
theorem ExprStuck.child (shaped : tree.Shaped) (stuck : tree.ExprStuck e)
    {below : List TreeIteratValue} (found : under tree true e = .ok below)
    (depth : Nat) :
    (childValue top e depth).Stuck tree ∨ ∃ val ∈ below, val.Stuck tree := by
  obtain ⟨e', member, isStuck⟩ := stuck
  rcases List.mem_cons.mp member with rfl | operand
  · rcases under_eq_ok found with
      ⟨led, rfl⟩ | ⟨source, entered, led, entering, rfl⟩
    · rcases isStuck with failed | ⟨source, led', _⟩
      · exact absurd led (failed _)
      · rw [led] at led'
        cases led'
    · rcases isStuck with failed | ⟨source', led', isStuck⟩
      · exact absurd led (failed _)
      · obtain ⟨entered', entering', value, fresh⟩ := shaped.enters led
        rw [entering] at entering'
        cases entering'
        rw [led] at led'
        cases led'
        refine .inr ⟨entered, List.mem_singleton_self _, ?_⟩
        rwa [TreeIteratValue.Stuck, if_pos ⟨value.typ, fresh⟩, value.stmtIdx]
  · left
    rw [TreeIteratValue.Stuck, if_neg (by simp [childValue, exprValue])]
    obtain ⟨arg, inside, rfl⟩ := List.mem_map.mp operand
    exact ⟨.atom arg, List.mem_map.mpr ⟨arg, inside, rfl⟩,
      .atom arg, List.mem_cons_self, isStuck⟩

/-- A statement that is stuck is so by its expression. -/
theorem StmtValue.stuck_enter (value : StmtValue tree idx top)
    (fresh : top.stmtDone = false) (stuck : top.Stuck tree) (depth : Nat) :
    ({ top with stmtDone := true, curDepth := depth } :
      TreeIteratValue).Stuck tree := by
  obtain ⟨st, e, found, walked, noStore, left⟩ := value.child
  rw [TreeIteratValue.Stuck, if_pos ⟨value.typ, fresh⟩, value.stmtIdx] at stuck
  rw [TreeIteratValue.Stuck, if_neg (by simp)]
  refine ⟨e, ?_, StmtStuck.expr found walked stuck⟩
  rcases left with whole | ⟨done, _⟩
  · exact whole ▸ List.mem_cons_self
  · rw [fresh] at done
    cases done

/-- What is stuck is still ahead after a step. -/
theorem Walking.stuck_step (walked : WalkedFrom tree root)
    (loops : iter.loopGetPut = true)
    (walking : Walking tree root iter.stack)
    (moved : treeIteratorNext tree iter = .ok (iter', some val))
    (goesOn : val.typ = .stmt ∨ val.typ = .expr)
    (ahead : ∃ val ∈ iter.stack, val.Stuck tree) :
    ∃ val ∈ iter'.stack, val.Stuck tree := by
  have walks : val.typ ≠ .recurse := by
    rcases goesOn with typ | typ <;> rw [typ] <;> nofun
  obtain ⟨finished, top, rest, split, all, _, yields⟩ :=
    treeIteratorPop_yields moved walks
  obtain ⟨stuck, member, isStuck⟩ := ahead
  rw [split] at walking member
  have member : stuck = top ∨ stuck ∈ rest := by
    rcases List.mem_append.mp member with done | later
    · exact absurd isStuck (all stuck done).not_stuck
    · exact List.mem_cons.mp later
  cases yields with
  | enter isStmt fresh =>
      rcases member with rfl | later
      · have busy : ¬ stuck.Finished := fun done => done.not_stuck isStuck
        obtain ⟨path, grounded⟩ := walking.drop busy
        obtain ⟨idx, earlier, rfl⟩ := grounded.path_cons
        exact ⟨_, List.mem_cons_self,
          (grounded.stmtValue isStmt).stuck_enter fresh isStuck _⟩
      · exact ⟨stuck, List.mem_cons_of_mem _ later, isStuck⟩
  | @child e subExpr _ _ typed next descended =>
      have typ : val.typ = .expr :=
        goesOn.resolve_left (descend_typ descended)
      obtain ⟨below, found, _, _, _, rfl, same⟩ := descend_expr descended typ
      have leads : under tree true e = .ok below := by
        rw [← loops]
        exact found
      rcases member with rfl | later
      · have visited : ¬ (stuck.typ = .stmt ∧ stuck.stmtDone = false) := by
          rcases typed with typ | ⟨_, done⟩ <;> simp [*]
        rw [TreeIteratValue.Stuck, if_neg visited] at isStuck
        obtain ⟨e', member, isStuck⟩ := isStuck
        rcases (some_mem_of_nextChild next e').mp member with rfl | left
        · rw [same]
          rcases ExprStuck.child walked.shaped isStuck leads _ with
            here | ⟨ahead, inside, isStuck⟩
          · exact ⟨_, List.mem_cons_self, here⟩
          · exact ⟨ahead, by simp [inside], isStuck⟩
        · refine ⟨{ stuck with subExpr := subExpr }, by simp, ?_⟩
          rw [TreeIteratValue.Stuck, if_neg visited]
          exact ⟨e', left, isStuck⟩
      · exact ⟨stuck, by simp [later], isStuck⟩

end Stuck

end Dependency

end HelgrindPlus
