import HelgrindPlus.Dependency.Irsb

/-!
# Removal of redundant register reads

The function `irsb_redundantGetRemoval` remembers for every byte range of the
guest state that was read or written as a whole the operand that it holds, and
lets a later read of the same range take that operand.  A write to other bytes
that overlap the range does not make it forget.
-/

namespace HelgrindPlus

namespace Dependency

open Outcome Bytes

def mkKeyGetPut (offset : Nat) (ty : IRType) : Except Halt Nat := do
  let size ← sizeofIRType ty
  let maxoff := offset + size - 1
  tlAssert (offset < 2 ^ 16)
  tlAssert (maxoff < 2 ^ 16)
  return offset <<< 16 ||| maxoff

abbrev GetEnv := Nat → Option IRAtom

def redundantGetStep (tyenv : List IRType) (env : GetEnv) :
    IRStmt → Except Halt (GetEnv × IRStmt)
  | .wrTmp tmp (.get offset ty) => do
      let key ← mkKeyGetPut offset ty
      match env key with
      | some valE =>
          let typ ← typeOfIRAtom tyenv valE
          return (env, .wrTmp tmp (if typ = ty then .atom valE
            else .get offset ty))
      | none =>
          return (Function.update env key (some (.rdTmp tmp)),
            .wrTmp tmp (.get offset ty))
  | .put offset data => do
      let typ ← typeOfIRAtom tyenv data
      let key ← mkKeyGetPut offset typ
      return (Function.update env key (some data), .put offset data)
  | st => return (env, st)

def redundantGets (tyenv : List IRType) :
    GetEnv → List IRStmt → Except Halt (List IRStmt)
  | _, [] => return []
  | env, st :: rest => do
      let (env', st') ← redundantGetStep tyenv env st
      let rest' ← redundantGets tyenv env' rest
      return st' :: rest'

def irsbRedundantGetRemoval (bb : IRSB) : Except Halt IRSB := do
  let stmts ← redundantGets bb.tyenv (fun _ => none) bb.stmts
  return { bb with stmts := stmts }

/-- The register has a size, and the key has room for its bytes. -/
def addressable (offset : Nat) (ty : IRType) : Bool :=
  ty ≠ .I1 && ty ≠ .I128 && offset + ty.bytes ≤ 2 ^ 16

def IRStmt.addressable (tyenv : List IRType) : IRStmt → Bool
  | wrTmp _ (.get offset ty) => Dependency.addressable offset ty
  | put offset data =>
      match typeOfIRAtom tyenv data with
      | .ok ty => Dependency.addressable offset ty
      | .error _ => false
  | _ => true

/-- The operand that is remembered for the `size` bytes at `offset` after the
statements `past`, the last of them first, and whether some but not exactly
these bytes were written since. -/
def cached (tyenv : List IRType) (offset size : Nat) :
    List IRStmt → Option (IRAtom × Bool)
  | [] => none
  | .put offset' data :: past =>
      if offset' = offset ∧ data.bytes tyenv = size then
        some (data, false)
      else if Disjoint offset size offset' (data.bytes tyenv) then
        cached tyenv offset size past
      else
        (cached tyenv offset size past).map fun found => (found.1, true)
  | .wrTmp tmp (.get offset' ty) :: past =>
      match cached tyenv offset size past with
      | some found => some found
      | none =>
          if offset' = offset ∧ ty.bytes = size then
            some (.rdTmp tmp, false)
          else
            none
  | _ :: past => cached tyenv offset size past

/-- The statement that takes the place of `st` after the statements `past`. -/
def replaceGet (tyenv : List IRType) (past : List IRStmt) : IRStmt → IRStmt
  | .wrTmp tmp (.get offset ty) =>
      match cached tyenv offset ty.bytes past with
      | some (atom, _) =>
          .wrTmp tmp (if typeOfIRAtom tyenv atom = .ok ty then .atom atom
            else .get offset ty)
      | none => .wrTmp tmp (.get offset ty)
  | st => st

def replaceGets (tyenv : List IRType) :
    List IRStmt → List IRStmt → List IRStmt
  | _, [] => []
  | past, st :: rest =>
      replaceGet tyenv past st :: replaceGets tyenv (st :: past) rest

section Refinement

variable {tyenv : List IRType} {env : GetEnv} {past : List IRStmt}

theorem mkKeyGetPut_of_addressable {offset : Nat} {ty : IRType}
    (fits : addressable offset ty) :
    mkKeyGetPut offset ty =
      .ok (offset * 2 ^ 16 + (offset + ty.bytes - 1)) := by
  have positive := ty.bytes_pos
  simp only [addressable, ne_eq, Bool.and_eq_true, decide_eq_true_eq] at fits
  obtain ⟨⟨noBit, noWide⟩, inside⟩ := fits
  have sized : sizeofIRType ty = .ok ty.bytes := by
    cases ty <;> first | rfl | contradiction
  have first : tlAssert (offset < 2 ^ 16) = .ok () := tlAssert_of (by omega)
  have last : tlAssert (offset + ty.bytes - 1 < 2 ^ 16) = .ok () :=
    tlAssert_of (by omega)
  have key : offset <<< 16 ||| (offset + ty.bytes - 1) =
      offset * 2 ^ 16 + (offset + ty.bytes - 1) := by
    rw [← Nat.shiftLeft_add_eq_or_of_lt (by omega), Nat.shiftLeft_eq]
  simp only [mkKeyGetPut, sized, first, last, key, ok_bind]
  rfl

private theorem addressable_inside {offset : Nat} {ty : IRType}
    (fits : addressable offset ty) : offset + ty.bytes ≤ 2 ^ 16 := by
  simp only [addressable, Bool.and_eq_true, decide_eq_true_eq] at fits
  exact fits.2

/-- Registers with different bytes have different keys. -/
theorem key_eq_iff {offset offset' : Nat} {ty ty' : IRType}
    (fits : addressable offset ty) (fits' : addressable offset' ty') :
    offset * 2 ^ 16 + (offset + ty.bytes - 1) =
        offset' * 2 ^ 16 + (offset' + ty'.bytes - 1) ↔
      offset' = offset ∧ ty'.bytes = ty.bytes := by
  have inside := addressable_inside fits
  have inside' := addressable_inside fits'
  have positive := ty.bytes_pos
  have positive' := ty'.bytes_pos
  omega

/-- The environment has the remembered operands under their keys. -/
def Remembers (tyenv : List IRType) (past : List IRStmt) (env : GetEnv) :
    Prop :=
  ∀ offset ty, addressable offset ty →
    env (offset * 2 ^ 16 + (offset + ty.bytes - 1)) =
      (cached tyenv offset ty.bytes past).map Prod.fst

/-- The remembered operands are of known types. -/
def CacheTyped (tyenv : List IRType) (past : List IRStmt) : Prop :=
  ∀ offset size found, cached tyenv offset size past = some found →
    ∃ ty, typeOfIRAtom tyenv found.1 = .ok ty

theorem bytes_of_typeOf {data : IRAtom} {ty : IRType}
    (typed : typeOfIRAtom tyenv data = .ok ty) :
    data.bytes tyenv = ty.bytes := by
  rw [IRAtom.bytes, typed]

theorem Remembers.put {offset : Nat} {data : IRAtom} {ty : IRType}
    (remembers : Remembers tyenv past env) (fits : addressable offset ty)
    (typed : typeOfIRAtom tyenv data = .ok ty) :
    Remembers tyenv (.put offset data :: past)
      (Function.update env (offset * 2 ^ 16 + (offset + ty.bytes - 1))
        (some data)) := by
  intro offset' ty' fits'
  have size := bytes_of_typeOf typed
  by_cases same : offset = offset' ∧ ty.bytes = ty'.bytes
  · have key := (key_eq_iff fits' fits).mpr same
    rw [key, Function.update_self, cached, size, if_pos same]
    rfl
  · have key := mt (key_eq_iff fits' fits).mp same
    rw [Function.update_of_ne key, remembers offset' ty' fits', cached, size,
      if_neg same]
    split
    · rfl
    · cases cached tyenv offset' ty'.bytes past <;> rfl

theorem Remembers.get_known {tmp offset : Nat} {ty : IRType}
    {found : IRAtom × Bool} (remembers : Remembers tyenv past env)
    (known : cached tyenv offset ty.bytes past = some found) :
    Remembers tyenv (.wrTmp tmp (.get offset ty) :: past) env := by
  intro offset' ty' fits'
  rw [remembers offset' ty' fits', cached]
  split
  · next other => rw [other]
  · next none =>
      have different : ¬ (offset = offset' ∧ ty.bytes = ty'.bytes) := by
        intro same
        obtain ⟨rfl, size⟩ := same
        rw [← size, known] at none
        cases none
      rw [none, if_neg different]

theorem Remembers.get_new {tmp offset : Nat} {ty : IRType}
    (remembers : Remembers tyenv past env) (fits : addressable offset ty)
    (unknown : cached tyenv offset ty.bytes past = none) :
    Remembers tyenv (.wrTmp tmp (.get offset ty) :: past)
      (Function.update env (offset * 2 ^ 16 + (offset + ty.bytes - 1))
        (some (.rdTmp tmp))) := by
  intro offset' ty' fits'
  rw [cached]
  by_cases same : offset = offset' ∧ ty.bytes = ty'.bytes
  · have key := (key_eq_iff fits' fits).mpr same
    have none : cached tyenv offset' ty'.bytes past = none := by
      rw [← same.1, ← same.2]
      exact unknown
    rw [key, Function.update_self, none, if_pos same]
    rfl
  · have key := mt (key_eq_iff fits' fits).mp same
    rw [Function.update_of_ne key, remembers offset' ty' fits', if_neg same]
    cases cached tyenv offset' ty'.bytes past <;> rfl

/-- Only assignments of a register and writes to one are remembered. -/
theorem cached_cons_other {st : IRStmt} {offset size : Nat}
    (noPut : ∀ offset' data, st ≠ .put offset' data)
    (noGet : ∀ tmp offset' ty, st ≠ .wrTmp tmp (.get offset' ty)) :
    cached tyenv offset size (st :: past) = cached tyenv offset size past := by
  cases st with
  | put offset' data => exact absurd rfl (noPut offset' data)
  | wrTmp tmp data =>
      cases data with
      | get offset' ty => exact absurd rfl (noGet tmp offset' ty)
      | _ => rfl
  | _ => rfl

private theorem redundantGetStep_spec {st : IRStmt}
    (remembers : Remembers tyenv past env) (typed : CacheTyped tyenv past)
    (fits : st.addressable tyenv) :
    ∃ env', redundantGetStep tyenv env st =
        .ok (env', replaceGet tyenv past st) ∧
      Remembers tyenv (st :: past) env' := by
  have other : (∀ offset data, st ≠ .put offset data) →
      (∀ tmp offset ty, st ≠ .wrTmp tmp (.get offset ty)) →
      Remembers tyenv (st :: past) env := by
    intro noPut noGet offset ty fits
    rw [cached_cons_other noPut noGet]
    exact remembers offset ty fits
  cases st with
  | put offset data =>
      simp only [IRStmt.addressable] at fits
      split at fits
      · next ty typedData =>
          refine ⟨_, ?_, remembers.put fits typedData⟩
          simp only [redundantGetStep, typedData, ok_bind,
            mkKeyGetPut_of_addressable fits]
          rfl
      · cases fits
  | wrTmp tmp data =>
      cases data with
      | get offset ty =>
          have fits : addressable offset ty := fits
          have lookup := remembers offset ty fits
          cases known : cached tyenv offset ty.bytes past with
          | none =>
              refine ⟨_, ?_, remembers.get_new fits known⟩
              rw [known] at lookup
              simp only [redundantGetStep, mkKeyGetPut_of_addressable fits,
                ok_bind, lookup, Option.map_none, replaceGet, known]
              rfl
          | some found =>
              refine ⟨env, ?_, remembers.get_known known⟩
              obtain ⟨typ, typedFound⟩ := typed _ _ _ known
              rw [known] at lookup
              simp only [redundantGetStep, mkKeyGetPut_of_addressable fits,
                ok_bind, lookup, Option.map_some, replaceGet, known,
                typedFound, Except.ok.injEq]
              rfl
      | _ => exact ⟨env, rfl, other (by simp) (by simp)⟩
  | _ => exact ⟨env, rfl, other (by simp) (by simp)⟩

end Refinement

section Meaning

variable {host : Host} {tyenv : List IRType} {defined : List Nat}
  {past : List IRStmt} {state : IRState}

/-- The remembered operands are of known types and have been assigned. -/
def CacheScoped (tyenv : List IRType) (defined : List Nat)
    (past : List IRStmt) : Prop :=
  ∀ offset size found, cached tyenv offset size past = some found →
    (∀ tmp ∈ found.1.tmps, tmp ∈ defined) ∧
      ∃ ty, typeOfIRAtom tyenv found.1 = .ok ty

private theorem typeOfIRAtom_rdTmp {tmp : Nat} {ty : IRType}
    (declared : tyenv[tmp]? = some ty) :
    typeOfIRAtom tyenv (.rdTmp tmp) = .ok ty := by
  rw [typeOfIRAtom, declared]

/-- What an operand remembered after one more statement is. -/
theorem cached_cons {st : IRStmt} {offset size : Nat} {found : IRAtom × Bool}
    (known : cached tyenv offset size (st :: past) = some found) :
    (∃ data, st = .put offset data ∧ data.bytes tyenv = size ∧
        found = (data, false)) ∨
      (∃ tmp ty, st = .wrTmp tmp (.get offset ty) ∧ ty.bytes = size ∧
        found = (.rdTmp tmp, false)) ∨
      ∃ stale, cached tyenv offset size past = some (found.1, stale) ∧
        (found.2 = false → stale = false ∧
          ∀ offset' data, st = .put offset' data →
            Disjoint offset size offset' (data.bytes tyenv)) := by
  have other : (∀ offset' data, st ≠ .put offset' data) →
      cached tyenv offset size past = some found →
      ∃ stale, cached tyenv offset size past = some (found.1, stale) ∧
        (found.2 = false → stale = false ∧
          ∀ offset' data, st = .put offset' data →
            Disjoint offset size offset' (data.bytes tyenv)) := by
    intro noPut same
    refine ⟨found.2, same, fun fresh => ⟨fresh, ?_⟩⟩
    intro offset' data isPut
    exact absurd isPut (noPut offset' data)
  cases st with
  | put offset' data =>
      rw [cached] at known
      split at known
      · next same =>
          obtain ⟨rfl, size⟩ := same
          exact .inl ⟨data, rfl, size, (Option.some.inj known).symm⟩
      · split at known
        · next disjoint =>
            refine .inr (.inr ⟨found.2, known, fun fresh => ⟨fresh, ?_⟩⟩)
            intro offset' data isPut
            cases isPut
            exact disjoint
        · cases before : cached tyenv offset size past with
          | none => rw [before] at known; cases known
          | some found' =>
              rw [before] at known
              cases known
              exact .inr (.inr ⟨found'.2, rfl, fun fresh => by cases fresh⟩)
  | wrTmp tmp data =>
      cases data with
      | get offset' ty =>
          rw [cached] at known
          split at known
          · next before =>
              rw [known] at before
              exact .inr (.inr (other (by simp) before))
          · split at known
            · next same =>
                obtain ⟨rfl, size⟩ := same
                exact .inr (.inl ⟨tmp, ty, rfl, size,
                  (Option.some.inj known).symm⟩)
            · cases known
      | _ => exact .inr (.inr (other (by simp) known))
  | _ => exact .inr (.inr (other (by simp) known))

theorem CacheScoped.cons {st : IRStmt}
    (cache : CacheScoped tyenv defined past)
    (reads : ∀ tmp ∈ st.reads, tmp ∈ defined)
    (writes : ∀ tmp ∈ st.defines.toList, tmp < tyenv.length)
    (fits : st.addressable tyenv) :
    CacheScoped tyenv (st.defines.toList ++ defined) (st :: past) := by
  intro offset size found known
  obtain ⟨data, rfl, _, rfl⟩ | ⟨tmp, ty, rfl, _, rfl⟩ | ⟨stale, before, _⟩ :=
    cached_cons known
  · refine ⟨fun tmp read => List.mem_append_right _ (reads tmp read), ?_⟩
    simp only [IRStmt.addressable] at fits
    split at fits
    · next ty typed => exact ⟨ty, typed⟩
    · cases fits
  · have declared := writes tmp (List.mem_singleton_self tmp)
    refine ⟨?_, tyenv[tmp], typeOfIRAtom_rdTmp
      (List.getElem?_eq_getElem declared)⟩
    intro other read
    rw [List.mem_singleton.mp read]
    exact List.mem_append_left _ (List.mem_singleton_self tmp)
  · obtain ⟨before, typed⟩ := cache offset size _ before
    exact ⟨fun tmp read => List.mem_append_right _ (before tmp read), typed⟩

/-- The register has the value of the operand that is remembered for it,
unless a write to other bytes has overlapped it since. -/
structure Coherent (tyenv : List IRType) (defined : List Nat)
    (past : List IRStmt) (state : IRState) : Prop where
  cache : CacheScoped tyenv defined past
  ranged : Ranged tyenv defined state
  holds : ∀ offset size atom,
    cached tyenv offset size past = some (atom, false) →
    atom.eval state = read state.guest offset size

private theorem exec_temps_of_not_defines {st : IRStmt} (plain : st.plain)
    {tmp : Nat} (kept : tmp ∉ st.defines.toList) :
    (exec host tyenv state st).temps tmp = state.temps tmp := by
  cases st with
  | wrTmp tmp' data =>
      have different : tmp ≠ tmp' := by simpa [IRStmt.defines] using kept
      simp only [exec, Function.update_of_ne different]
  | putI descr ix bias data => cases plain
  | dirty details => cases plain
  | store endness addr data => cases endness <;> rfl
  | _ => rfl

private theorem exec_guest_of_not_put {st : IRStmt} (plain : st.plain)
    (noPut : ∀ offset data, st ≠ .put offset data) :
    (exec host tyenv state st).guest = state.guest := by
  cases st with
  | put offset data => exact absurd rfl (noPut offset data)
  | putI descr ix bias data => cases plain
  | dirty details => cases plain
  | store endness addr data => cases endness <;> rfl
  | _ => rfl

theorem Ranged.exec {st : IRStmt} (ranged : Ranged tyenv defined state)
    (reads : ∀ tmp ∈ st.reads, tmp ∈ defined)
    (writes : ∀ tmp ∈ st.defines.toList, tmp < tyenv.length ∧ tmp ∉ defined)
    (typed : st.wellTyped host tyenv) (plain : st.plain) :
    Ranged tyenv (st.defines.toList ++ defined)
      (exec host tyenv state st) := by
  intro tmp isDefined ty declared
  by_cases new : tmp ∈ st.defines.toList
  · cases st with
    | wrTmp tmp' data =>
        have same : tmp = tmp' := by simpa [IRStmt.defines] using new
        subst same
        obtain ⟨typed, uniform⟩ := IRStmt.wellTyped_wrTmp typed declared
        simp only [Dependency.exec, Function.update_self]
        exact ranged.eval_lt reads typed uniform
    | dirty details => cases plain
    | _ => cases new
  · rw [exec_temps_of_not_defines plain new]
    have before : tmp ∈ defined := by
      cases List.mem_append.mp isDefined with
      | inl now => exact absurd now new
      | inr before => exact before
    exact ranged tmp before ty declared

private theorem addressable_bits {offset : Nat} {ty : IRType}
    (fits : addressable offset ty) : 2 ^ ty.bits = 256 ^ ty.bytes := by
  cases ty <;> first | rfl | cases fits

/-- A register that has a size is read as it is. -/
theorem eval_get {offset : Nat} {ty : IRType}
    (fits : addressable offset ty) :
    IRExpr.eval host state (.get offset ty) =
      read state.guest offset ty.bytes := by
  rw [IRExpr.eval, IRType.fit, addressable_bits fits]
  exact Nat.mod_eq_of_lt (read_lt _ _ _)

private theorem eval_exec_of_defined {st : IRStmt} {atom : IRAtom}
    (inScope : ∀ tmp ∈ atom.tmps, tmp ∈ defined) (plain : st.plain)
    (writes : ∀ tmp ∈ st.defines.toList, tmp ∉ defined) :
    atom.eval (exec host tyenv state st) = atom.eval state := by
  apply IRAtom.eval_congr
  intro tmp read
  apply exec_temps_of_not_defines plain
  intro new
  exact writes tmp new (inScope tmp read)

theorem Coherent.exec {st : IRStmt}
    (coherent : Coherent tyenv defined past state)
    (reads : ∀ tmp ∈ st.reads, tmp ∈ defined)
    (writes : ∀ tmp ∈ st.defines.toList, tmp < tyenv.length ∧ tmp ∉ defined)
    (typed : st.wellTyped host tyenv) (plain : st.plain)
    (fits : st.addressable tyenv) :
    Coherent tyenv (st.defines.toList ++ defined) (st :: past)
      (exec host tyenv state st) := by
  refine ⟨coherent.cache.cons reads (fun tmp new => (writes tmp new).1) fits,
    coherent.ranged.exec reads writes typed plain, ?_⟩
  intro offset size atom known
  obtain ⟨data, rfl, size, found⟩ | ⟨tmp, ty, rfl, size, found⟩ |
    ⟨stale, before, fresh⟩ := cached_cons known
  · -- the register has just been written
    cases found
    simp only [IRStmt.addressable] at fits
    split at fits
    · next ty typedData =>
        have bound := coherent.ranged.eval_atom_lt reads typedData
        rw [addressable_bits fits] at bound
        rw [bytes_of_typeOf typedData] at size
        simp only [Dependency.exec, bytes_of_typeOf typedData, ← size]
        exact (read_write_of_lt bound).symm
    · cases fits
  · -- the register has just been read
    cases found
    simp only [IRAtom.eval, Dependency.exec, Function.update_self, ← size]
    exact eval_get fits
  · obtain ⟨notStale, disjoint⟩ := fresh rfl
    subst notStale
    have inScope := (coherent.cache offset size _ before).1
    rw [eval_exec_of_defined inScope plain fun tmp new => (writes tmp new).2,
      coherent.holds offset size atom before]
    by_cases isPut : ∃ offset' data, st = .put offset' data
    · obtain ⟨offset', data, rfl⟩ := isPut
      exact (read_write_disjoint (disjoint offset' data rfl)).symm
    · rw [exec_guest_of_not_put plain fun offset' data same =>
        isPut ⟨offset', data, same⟩]

end Meaning

section Block

variable {host : Host} {tyenv : List IRType} {defined : List Nat}
  {past : List IRStmt} {state : IRState} {env : GetEnv}

/-- The statement reads a register whose remembered operand would take its
place although other bytes that overlap it were written since. -/
def staleGet (tyenv : List IRType) (past : List IRStmt) : IRStmt → Bool
  | .wrTmp _ (.get offset ty) =>
      match cached tyenv offset ty.bytes past with
      | some (atom, stale) => stale && typeOfIRAtom tyenv atom = .ok ty
      | none => false
  | _ => false

/-- No statement reads such a register. -/
def freshGets (tyenv : List IRType) : List IRStmt → List IRStmt → Bool
  | _, [] => true
  | past, st :: rest =>
      !staleGet tyenv past st && freshGets tyenv (st :: past) rest

private theorem exec_replaceGet {st : IRStmt}
    (coherent : Coherent tyenv defined past state)
    (fits : st.addressable tyenv) (fresh : ¬ staleGet tyenv past st) :
    exec host tyenv state (replaceGet tyenv past st) =
      exec host tyenv state st := by
  cases st with
  | wrTmp tmp data =>
      cases data with
      | get offset ty =>
          simp only [staleGet] at fresh
          simp only [replaceGet]
          split
          · next atom stale known =>
              rw [known] at fresh
              split
              · next typed =>
                  have notStale : stale = false := by simpa [typed] using fresh
                  subst notStale
                  have value : IRExpr.eval host state (.get offset ty) =
                      atom.eval state := by
                    rw [eval_get fits]
                    exact (coherent.holds offset ty.bytes atom known).symm
                  rw [exec, exec, value]
                  rfl
              · rfl
          · rfl
      | _ => rfl
  | _ => rfl

theorem replaceGet_defines (tyenv : List IRType) (past : List IRStmt)
    (st : IRStmt) : (replaceGet tyenv past st).defines = st.defines := by
  cases st with
  | wrTmp tmp data =>
      cases data with
      | get offset ty =>
          simp only [replaceGet]
          split <;> rfl
      | _ => rfl
  | _ => rfl

private theorem replaceGet_reads {st : IRStmt}
    (cache : CacheScoped tyenv defined past)
    (reads : ∀ tmp ∈ st.reads, tmp ∈ defined) :
    ∀ tmp ∈ (replaceGet tyenv past st).reads, tmp ∈ defined := by
  cases st with
  | wrTmp tmp data =>
      cases data with
      | get offset ty =>
          simp only [replaceGet]
          split
          · next atom stale known =>
              split
              · exact (cache offset ty.bytes _ known).1
              · exact reads
          · exact reads
      | _ => exact reads
  | _ => exact reads

theorem replaceGet_wellTyped {st : IRStmt} (typed : st.wellTyped host tyenv) :
    (replaceGet tyenv past st).wellTyped host tyenv := by
  cases st with
  | wrTmp tmp data =>
      cases data with
      | get offset ty =>
          simp only [replaceGet]
          split
          · next atom stale known =>
              split
              · next same =>
                  simp only [IRStmt.wellTyped, typeOfIRExpr, same,
                    IRExpr.uniform] at typed ⊢
                  exact typed
              · exact typed
          · exact typed
      | _ => exact typed
  | _ => exact typed

theorem CacheScoped.nil : CacheScoped tyenv defined [] := by
  intro offset size found known
  cases known

theorem Coherent.initial : Coherent tyenv [] [] state :=
  ⟨.nil, (fun _ isDefined => by cases isDefined),
    (fun _ _ _ known => by cases known)⟩

theorem redundantGets_spec {stmts : List IRStmt}
    (remembers : Remembers tyenv past env)
    (cache : CacheScoped tyenv defined past)
    (inScope : Scoped tyenv defined stmts)
    (fits : ∀ st ∈ stmts, st.addressable tyenv) :
    redundantGets tyenv env stmts = .ok (replaceGets tyenv past stmts) := by
  induction stmts generalizing past defined env with
  | nil => rfl
  | cons st rest induction =>
      obtain ⟨reads, writes, later⟩ := inScope
      have fitsFirst := fits st (List.mem_cons_self ..)
      have typed : CacheTyped tyenv past := by
        intro offset size found known
        exact (cache offset size found known).2
      obtain ⟨env', step, remembers'⟩ :=
        redundantGetStep_spec remembers typed fitsFirst
      have cache' := cache.cons reads (fun tmp new => (writes tmp new).1)
        fitsFirst
      have rest' := induction remembers' cache' later
        fun other mem => fits other (List.mem_cons_of_mem _ mem)
      simp only [redundantGets, step, ok_bind, rest', replaceGets]
      rfl

theorem replaceGets_scoped {stmts : List IRStmt}
    (cache : CacheScoped tyenv defined past)
    (inScope : Scoped tyenv defined stmts)
    (fits : ∀ st ∈ stmts, st.addressable tyenv) :
    Scoped tyenv defined (replaceGets tyenv past stmts) := by
  induction stmts generalizing past defined with
  | nil => trivial
  | cons st rest induction =>
      obtain ⟨reads, writes, later⟩ := inScope
      have cache' := cache.cons reads (fun tmp new => (writes tmp new).1)
        (fits st (List.mem_cons_self ..))
      refine ⟨replaceGet_reads cache reads, ?_, ?_⟩
      · rw [replaceGet_defines]
        exact writes
      · rw [replaceGet_defines]
        exact induction cache' later
          fun other mem => fits other (List.mem_cons_of_mem _ mem)

theorem replaceGet_plain {st : IRStmt} (plain : st.plain) :
    (replaceGet tyenv past st).plain := by
  cases st with
  | wrTmp tmp data =>
      cases data with
      | get offset ty =>
          simp only [replaceGet]
          split
          · split <;> rfl
          · rfl
      | _ => exact plain
  | _ => exact plain

/-- What no replacement breaks holds of the whole result. -/
theorem replaceGets_all {good : IRStmt → Prop} {stmts : List IRStmt}
    (kept : ∀ past st, good st → good (replaceGet tyenv past st))
    (all : ∀ st ∈ stmts, good st) :
    ∀ st ∈ replaceGets tyenv past stmts, good st := by
  induction stmts generalizing past with
  | nil => intro st mem; cases mem
  | cons first rest induction =>
      intro st mem
      cases List.mem_cons.mp mem with
      | inl isFirst =>
          rw [isFirst]
          exact kept past first (all first (List.mem_cons_self ..))
      | inr isLater =>
          exact induction
            (fun other mem => all other (List.mem_cons_of_mem _ mem)) st
            isLater

theorem getElem?_replaceGets (stmts : List IRStmt) (count : Nat) :
    (replaceGets tyenv past stmts)[count]? =
      stmts[count]?.map
        (replaceGet tyenv ((stmts.take count).reverse ++ past)) := by
  induction stmts generalizing past count with
  | nil => rfl
  | cons st rest induction =>
      cases count with
      | zero => rfl
      | succ count =>
          simp only [replaceGets, List.getElem?_cons_succ, induction,
            List.take_succ_cons, List.reverse_cons, List.append_assoc,
            List.cons_append, List.nil_append]

theorem length_replaceGets (stmts : List IRStmt) :
    (replaceGets tyenv past stmts).length = stmts.length := by
  induction stmts generalizing past with
  | nil => rfl
  | cons st rest induction => simp only [replaceGets, List.length_cons, induction]

theorem definedBy_replaceGets (stmts : List IRStmt) :
    definedBy (replaceGets tyenv past stmts) = definedBy stmts := by
  induction stmts generalizing past with
  | nil => rfl
  | cons st rest induction =>
      simp only [definedBy, replaceGets, List.flatMap_cons,
        replaceGet_defines] at induction ⊢
      rw [induction]

/-- Up to any point of it, the block does what it did before. -/
theorem execs_replaceGets {stmts : List IRStmt}
    (coherent : Coherent tyenv defined past state)
    (inScope : Scoped tyenv defined stmts)
    (typed : ∀ st ∈ stmts, st.wellTyped host tyenv)
    (plain : ∀ st ∈ stmts, st.plain)
    (fits : ∀ st ∈ stmts, st.addressable tyenv)
    (fresh : freshGets tyenv past stmts) (count : Nat) :
    execs host tyenv state ((replaceGets tyenv past stmts).take count) =
      execs host tyenv state (stmts.take count) := by
  induction stmts generalizing past defined state count with
  | nil => rfl
  | cons st rest induction =>
      cases count with
      | zero => rfl
      | succ count =>
          obtain ⟨reads, writes, later⟩ := inScope
          have first := List.mem_cons_self (a := st) (l := rest)
          simp only [freshGets, Bool.and_eq_true, Bool.not_eq_true'] at fresh
          simp only [replaceGets, List.take_succ_cons, execs_cons]
          rw [exec_replaceGet coherent (fits st first) (by simp [fresh.1])]
          apply induction
            (coherent.exec reads writes (typed st first) (plain st first)
              (fits st first)) later
          · exact fun other mem => typed other (List.mem_cons_of_mem _ mem)
          · exact fun other mem => plain other (List.mem_cons_of_mem _ mem)
          · exact fun other mem => fits other (List.mem_cons_of_mem _ mem)
          · exact fresh.2

end Block

end Dependency

end HelgrindPlus
