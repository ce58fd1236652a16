import Mathlib.Tactic.Common

/-!
# Computations that may abort

A total-correctness reading of `Except`: `Returns computation post` says that
the computation does not abort and that its result satisfies `post`.  The
rules below follow the way such computations are put together.
-/

namespace Outcome

variable {ε ι : Type*} {α β σ : Type}

def Returns (computation : Except ε α) (post : α → Prop) : Prop :=
  ∃ result, computation = .ok result ∧ post result

@[simp] theorem ok_bind (value : α) (next : α → Except ε β) :
    (Except.ok value >>= next) = next value := rfl

theorem bind_eq_ok {computation : Except ε α} {next : α → Except ε β}
    {result : β} :
    (computation >>= next) = .ok result ↔
      ∃ value, computation = .ok value ∧ next value = .ok result := by
  cases computation with
  | error abort => simp [bind, Except.bind]
  | ok value => simp

theorem Returns.pure {result : α} {post : α → Prop}
    (holds : post result) :
    Returns (Pure.pure result : Except ε α) post :=
  ⟨result, rfl, holds⟩

theorem Returns.ok {result : α} {post : α → Prop}
    (holds : post result) :
    Returns (.ok result : Except ε α) post :=
  ⟨result, rfl, holds⟩

theorem Returns.bind {computation : Except ε α} {next : α → Except ε β}
    {middle : α → Prop} {post : β → Prop}
    (first : Returns computation middle)
    (second : ∀ value, middle value → Returns (next value) post) :
    Returns (computation >>= next) post := by
  obtain ⟨value, rfl, holds⟩ := first
  exact second value holds

theorem Returns.mono {computation : Except ε α} {weak strong : α → Prop}
    (returns : Returns computation strong)
    (implies : ∀ value, strong value → weak value) :
    Returns computation weak := by
  obtain ⟨value, equation, holds⟩ := returns
  exact ⟨value, equation, implies value holds⟩

theorem Returns.mapError {ε' : Type*} {computation : Except ε α}
    {post : α → Prop} (returns : Returns computation post) (f : ε → ε') :
    Returns (computation.mapError f) post := by
  obtain ⟨result, rfl, holds⟩ := returns
  exact ⟨result, rfl, holds⟩

/-- The postcondition holds of any result that the computation is known to
have. -/
theorem Returns.of_eq_ok {computation : Except ε α} {post : α → Prop}
    {result : α} (returns : Returns computation post)
    (equation : computation = .ok result) : post result := by
  obtain ⟨value, same, holds⟩ := returns
  rw [same] at equation
  cases equation
  exact holds

/-- Two computations return related results or abort alike. -/
def Agrees (computation : Except ε α) (spec : Except ε β)
    (relation : α → β → Prop) : Prop :=
  match spec with
  | .ok expected => Returns computation (relation · expected)
  | .error abort => computation = .error abort

/-- The second part may use what the first has returned. -/
theorem Agrees.bind_known {α' β' : Type} {computation : Except ε α}
    {spec : Except ε β} {relation : α → β → Prop} {next : α → Except ε α'}
    {specNext : β → Except ε β'} {relation' : α' → β' → Prop}
    (first : Agrees computation spec relation)
    (second : ∀ value expected, spec = .ok expected →
      relation value expected →
      Agrees (next value) (specNext expected) relation') :
    Agrees (computation >>= next) (spec >>= specNext) relation' := by
  cases spec with
  | ok expected =>
      obtain ⟨value, rfl, related⟩ := first
      exact second value expected rfl related
  | error abort =>
      have failed : computation = .error abort := first
      subst failed
      rfl

theorem Agrees.bind {α' β' : Type} {computation : Except ε α}
    {spec : Except ε β} {relation : α → β → Prop} {next : α → Except ε α'}
    {specNext : β → Except ε β'} {relation' : α' → β' → Prop}
    (first : Agrees computation spec relation)
    (second : ∀ value expected, relation value expected →
      Agrees (next value) (specNext expected) relation') :
    Agrees (computation >>= next) (spec >>= specNext) relation' :=
  first.bind_known fun value expected _ => second value expected

/-- A computation agrees with itself. -/
theorem Agrees.refl (computation : Except ε α) :
    Agrees computation computation Eq := by
  cases computation with
  | ok result => exact ⟨result, rfl, rfl⟩
  | error abort => rfl

theorem Agrees.weaken {computation : Except ε α} {spec : Except ε β}
    {strong weak : α → β → Prop} (agrees : Agrees computation spec strong)
    (implies : ∀ value expected, strong value expected →
      weak value expected) :
    Agrees computation spec weak := by
  cases spec with
  | ok expected =>
      exact Returns.mono agrees fun value holds => implies value expected holds
  | error abort => exact agrees

theorem Agrees.eq_ok {computation : Except ε α} {spec : Except ε β}
    {relation : α → β → Prop} {result : α}
    (agrees : Agrees computation spec relation)
    (returned : computation = .ok result) :
    ∃ expected, spec = .ok expected ∧ relation result expected := by
  cases spec with
  | ok expected =>
      have returns : Returns computation (relation · expected) := agrees
      exact ⟨expected, rfl, returns.of_eq_ok returned⟩
  | error abort =>
      have failed : computation = .error abort := agrees
      rw [failed] at returned
      cases returned

theorem Agrees.returns {computation : Except ε α} {spec : Except ε β}
    {relation : α → β → Prop} {value : β}
    (agrees : Agrees computation spec relation) (known : spec = .ok value) :
    ∃ result, computation = .ok result ∧ relation result value := by
  rw [known] at agrees
  exact agrees

theorem Agrees.foldlM {τ : Type} {step : σ → ι → Except ε σ}
    {specStep : τ → ι → Except ε τ} {relation : σ → τ → Prop}
    (kept : ∀ item state expected, relation state expected →
      Agrees (step state item) (specStep expected item) relation)
    (items : List ι) {start : σ} {specStart : τ}
    (initially : relation start specStart) :
    Agrees (items.foldlM step start) (items.foldlM specStep specStart)
      relation := by
  induction items generalizing start specStart with
  | nil => exact Returns.pure initially
  | cons item rest induction =>
      rw [List.foldlM_cons, List.foldlM_cons]
      apply (kept item start specStart initially).bind
      intro state expected related
      exact induction related

/-- A computation returns if something read off its result is known. -/
theorem exists_ok_of_map {computation : Except ε α} {view : α → β} {seen : β}
    (known : computation.toOption.map view = some seen) :
    ∃ result, computation = .ok result ∧ view result = seen := by
  cases computation with
  | error abort => cases known
  | ok result => exact ⟨result, rfl, Option.some.inj known⟩

theorem eq_error_of_map {computation : Except ε α} {view : α → β} {abort : ε}
    (known : computation.map view = .error abort) :
    computation = .error abort := by
  cases computation with
  | error other =>
      cases known
      rfl
  | ok result => cases known

/-- The loop rule: an invariant of the number of rounds done, kept by every
round, holds of all of them when the loop ends. -/
theorem Returns.foldlM {step : σ → ι → Except ε σ}
    {invariant : ℕ → σ → Prop} {items : List ι} {start : σ}
    (kept : ∀ n state item, items[n]? = some item → invariant n state →
      Returns (step state item) (invariant (n + 1)))
    (initially : invariant 0 start) :
    Returns (items.foldlM step start) (invariant items.length) := by
  induction items generalizing start invariant with
  | nil => exact Returns.pure initially
  | cons item rest induction =>
      rw [List.foldlM_cons]
      apply (kept 0 start item rfl initially).bind
      intro state holds
      exact @induction (fun n => invariant (n + 1)) _
        (fun n state item atN => kept (n + 1) state item atN) holds

/-- A loop that only checks. -/
theorem forM_eq_ok {items : List ι} {check : ι → Except ε PUnit}
    (passes : ∀ item ∈ items, check item = .ok ()) :
    items.forM check = .ok () := by
  induction items with
  | nil => rfl
  | cons item items induction =>
      rw [List.forM, passes item (by simp), ok_bind]
      exact induction fun later member => passes later (by simp [member])

/-- The rule for a search that stops at the first find. -/
theorem Returns.findSomeM? {probe : ι → Except ε (Option α)}
    {items : List ι} {post : ι → Option α → Prop}
    (probed : ∀ item ∈ items, Returns (probe item) (post item)) :
    Returns (items.findSomeM? probe) fun found =>
      match found with
      | some value => ∃ item ∈ items, post item (some value)
      | none => ∀ item ∈ items, post item none := by
  induction items with
  | nil => exact Returns.pure fun item member => nomatch member
  | cons item rest induction =>
      rw [List.findSomeM?_cons]
      apply (probed item List.mem_cons_self).bind
      intro found holds
      cases found with
      | some value => exact Returns.pure ⟨item, List.mem_cons_self, holds⟩
      | none =>
          apply (induction fun later member =>
            probed later (List.mem_cons_of_mem _ member)).mono
          intro found later
          cases found with
          | some value =>
              obtain ⟨item, member, holds⟩ := later
              exact ⟨item, List.mem_cons_of_mem _ member, holds⟩
          | none => exact List.forall_mem_cons.mpr ⟨holds, later⟩

/-- The loop rule for a loop that is known to have ended. -/
theorem foldlM_eq_ok_invariant {step : σ → ι → Except ε σ}
    {invariant : ℕ → σ → Prop} {items : List ι} {start final : σ}
    (kept : ∀ n state next item, items[n]? = some item → invariant n state →
      step state item = .ok next → invariant (n + 1) next)
    (initially : invariant 0 start)
    (finished : items.foldlM step start = .ok final) :
    invariant items.length final := by
  induction items generalizing start invariant with
  | nil =>
      cases finished
      exact initially
  | cons item rest induction =>
      rw [List.foldlM_cons] at finished
      cases first : step start item with
      | error abort =>
          rw [first] at finished
          cases finished
      | ok next =>
          rw [first] at finished
          exact @induction (fun n => invariant (n + 1)) _
            (fun n state next item atN => kept (n + 1) state next item atN)
            (kept 0 start next item rfl initially first) finished

/-- A loop whose rounds return what those of another one return. -/
theorem foldlM_eq_ok_mono {ε' : Type*} {step : σ → ι → Except ε σ}
    {step' : σ → ι → Except ε' σ}
    (extends' : ∀ state item next, step state item = .ok next →
      step' state item = .ok next) {items : List ι} {start final : σ}
    (finished : items.foldlM step start = .ok final) :
    items.foldlM step' start = .ok final := by
  induction items generalizing start with
  | nil =>
      cases finished
      rfl
  | cons item rest induction =>
      rw [List.foldlM_cons] at finished ⊢
      obtain ⟨next, first, finished⟩ := bind_eq_ok.mp finished
      rw [extends' start item next first, ok_bind]
      exact induction finished

/-- Beyond the end of a list nothing more is taken. -/
theorem take_succ_of_none {items : List ι} {n : ℕ}
    (atN : items[n]? = none) : items.take (n + 1) = items.take n := by
  rw [List.take_add_one, atN, Option.toList_none, List.append_nil]

/-- Induction over the beginnings of a list, for what does not say how long
they are. -/
@[elab_as_elim]
theorem take_induction {items : List ι} {motive : List ι → Prop}
    (nil : motive [])
    (step : ∀ n item, items[n]? = some item → motive (items.take n) →
      motive (items.take (n + 1))) (n : ℕ) : motive (items.take n) := by
  induction n with
  | zero => exact nil
  | succ n induction =>
      cases atN : items[n]? with
      | none => rwa [take_succ_of_none atN]
      | some item => exact step n item atN induction

/-- One more round of a loop. -/
theorem foldlM_take_succ {step : σ → ι → Except ε σ} {items : List ι}
    {n : ℕ} {item : ι} (atN : items[n]? = some item) (start : σ) :
    (items.take (n + 1)).foldlM step start =
      (items.take n).foldlM step start >>= (step · item) := by
  rw [List.take_add_one, atN, Option.toList_some, List.foldlM_append]
  congr
  funext state
  simp

/-- The loop rule for any number of rounds.  A round may use what the loop
has done before it. -/
theorem foldlM_take_invariant {step : σ → ι → Except ε σ}
    {invariant : σ → Prop} {items : List ι} {start : σ}
    (kept : ∀ n state item next,
      (items.take n).foldlM step start = .ok state → items[n]? = some item →
      invariant state → step state item = .ok next → invariant next)
    (initially : invariant start) (n : ℕ) {final : σ}
    (finished : (items.take n).foldlM step start = .ok final) :
    invariant final := by
  have all : ∀ final, (items.take n).foldlM step start = .ok final →
      invariant final := by
    refine take_induction ?_ (fun n item atN induction => ?_) n
    · intro final finished
      cases finished
      exact initially
    · intro final finished
      rw [foldlM_take_succ atN] at finished
      obtain ⟨state, before, stepped⟩ := bind_eq_ok.mp finished
      exact kept n state item final before atN (induction _ before) stepped
  exact all final finished

/-- The computation aborts only as allowed, and a result satisfies `post`. -/
def Satisfies (fails : ε → Prop) (computation : Except ε α)
    (post : α → Prop) : Prop :=
  match computation with
  | .ok result => post result
  | .error abort => fails abort

section Satisfies

variable {fails : ε → Prop}

theorem Returns.satisfies {computation : Except ε α} {post : α → Prop}
    (returns : Returns computation post) :
    Satisfies fails computation post := by
  obtain ⟨result, rfl, holds⟩ := returns
  exact holds

theorem Satisfies.returns {computation : Except ε α} {post : α → Prop}
    (satisfies : Satisfies (fun _ => False) computation post) :
    Returns computation post := by
  cases computation with
  | ok result => exact ⟨result, rfl, satisfies⟩
  | error abort => exact satisfies.elim

theorem Satisfies.of_eq_ok {computation : Except ε α} {post : α → Prop}
    {result : α} (satisfies : Satisfies fails computation post)
    (equation : computation = .ok result) : post result := by
  subst equation
  exact satisfies

theorem Satisfies.pure {result : α} {post : α → Prop}
    (holds : post result) :
    Satisfies fails (Pure.pure result : Except ε α) post :=
  holds

theorem Satisfies.bind {computation : Except ε α} {next : α → Except ε β}
    {middle : α → Prop} {post : β → Prop}
    (first : Satisfies fails computation middle)
    (second : ∀ value, middle value → Satisfies fails (next value) post) :
    Satisfies fails (computation >>= next) post := by
  cases computation with
  | ok value => exact second value first
  | error abort => exact first

/-- Nothing is said of a computation that may abort. -/
theorem Satisfies.any (computation : Except ε α) :
    Satisfies (fun _ => True) computation (fun _ => True) := by
  cases computation <;> trivial

theorem Satisfies.mono {computation : Except ε α} {strong weak : α → Prop}
    (satisfies : Satisfies fails computation strong)
    (implies : ∀ value, strong value → weak value) :
    Satisfies fails computation weak := by
  cases computation with
  | ok value => exact implies value satisfies
  | error abort => exact satisfies

theorem Satisfies.and {fails' : ε → Prop} {computation : Except ε α}
    {post post' : α → Prop} (first : Satisfies fails computation post)
    (second : Satisfies fails' computation post') :
    Satisfies fails computation fun value => post value ∧ post' value := by
  cases computation with
  | ok value => exact ⟨first, second⟩
  | error abort => exact first

theorem Satisfies.failing {fails' : ε → Prop} {computation : Except ε α}
    {post : α → Prop} (satisfies : Satisfies fails computation post)
    (implies : ∀ abort, fails abort → fails' abort) :
    Satisfies fails' computation post := by
  cases computation with
  | ok value => exact satisfies
  | error abort => exact implies abort satisfies

theorem Satisfies.foldlM {step : σ → ι → Except ε σ}
    {invariant : ℕ → σ → Prop} {items : List ι} {start : σ}
    (kept : ∀ n state item, items[n]? = some item → invariant n state →
      Satisfies fails (step state item) (invariant (n + 1)))
    (initially : invariant 0 start) :
    Satisfies fails (items.foldlM step start) (invariant items.length) := by
  induction items generalizing start invariant with
  | nil => exact initially
  | cons item rest induction =>
      rw [List.foldlM_cons]
      apply (kept 0 start item rfl initially).bind
      intro state holds
      exact @induction (fun n => invariant (n + 1)) _
        (fun n state item atN => kept (n + 1) state item atN) holds

/-- The loop rule for an invariant that does not count the rounds. -/
theorem Satisfies.foldlM_kept {step : σ → ι → Except ε σ}
    {invariant : σ → Prop} {items : List ι} {start : σ}
    (kept : ∀ state, ∀ item ∈ items, invariant state →
      Satisfies fails (step state item) invariant)
    (initially : invariant start) :
    Satisfies fails (items.foldlM step start) invariant :=
  @Satisfies.foldlM _ _ _ fails step (fun _ => invariant) items start
    (fun _ state item atN => kept state item (List.mem_of_getElem? atN))
    initially

/-- The loop rule for any number of rounds, where a round may use what the
loop has done before it. -/
theorem Satisfies.foldlM_take {step : σ → ι → Except ε σ}
    {invariant : σ → Prop} {items : List ι} {start : σ}
    (kept : ∀ n state item,
      (items.take n).foldlM step start = .ok state → items[n]? = some item →
      invariant state → Satisfies fails (step state item) invariant)
    (initially : invariant start) (n : ℕ) :
    Satisfies fails ((items.take n).foldlM step start) invariant := by
  refine take_induction initially (fun n item atN induction => ?_) n
  rw [foldlM_take_succ atN]
  cases ran : (items.take n).foldlM step start with
  | error abort =>
      rw [ran] at induction
      exact induction
  | ok state =>
      rw [ran] at induction
      exact kept n state item ran atN induction

end Satisfies

end Outcome
