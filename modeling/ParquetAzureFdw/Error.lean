/-
# Errors

`src/error.rs`: the errors of the wrapper, and what stops a statement.  A Rust
panic (an index out of range inside a crate, an `expect`) also ends the
statement, but it is no `FdwError`; the functions that can reach one return
`Except Failure`.
-/

import Mathlib.Data.List.Forall2

namespace ParquetAzureFdw

/-- `FdwError` of `src/error.rs`. -/
inductive FdwError where
  | invalidOption (msg : String)
  | missingOption (name : String)
  | azure (msg : String)
  | parquet (msg : String)
  | arrow (msg : String)
  | io (msg : String)
  | unsupportedType (pgType arrowType : String)
  | schemaMismatch (msg : String)
  | concurrentUpdate (blob reason : String)
  deriving DecidableEq, Repr

/-- The text `Display` gives an error. -/
def FdwError.display : FdwError → String
  | .invalidOption msg => "invalid option: " ++ msg
  | .missingOption name => "missing required option: " ++ name
  | .azure msg => "azure storage error: " ++ msg
  | .parquet msg => "parquet error: " ++ msg
  | .arrow msg => "arrow error: " ++ msg
  | .io msg => "io error: " ++ msg
  | .unsupportedType pgType arrowType =>
    "unsupported type mapping: pg " ++ pgType ++ " ↔ arrow " ++ arrowType
  | .schemaMismatch msg => "schema mismatch: " ++ msg
  | .concurrentUpdate blob reason => "concurrent update on blob " ++ blob ++ ": " ++ reason

/-- `FdwResult<T>`. -/
abbrev FdwResult (α : Type) := Except FdwError α

/-- What stops a statement: an error raised to Postgres, or a panic. -/
inductive Failure where
  | error (e : FdwError)
  | panic (msg : String)
  deriving DecidableEq, Repr

/-- A result of code that can also panic. -/
abbrev Outcome (α : Type) := Except Failure α

/-- The `?` operator from a function that cannot panic. -/
def FdwResult.lift {α : Type} : FdwResult α → Outcome α
  | .ok a => .ok a
  | .error e => .error (.error e)

@[simp] theorem FdwResult.lift_eq_ok {α : Type} {x : FdwResult α} {a : α} :
    FdwResult.lift x = .ok a ↔ x = .ok a := by
  cases x <;> simp [FdwResult.lift]

theorem FdwResult.lift_eq_error {α : Type} {x : FdwResult α} {f : Failure}
    (h : FdwResult.lift x = .error f) : ∃ e, f = .error e := by
  cases x with
  | ok a => cases h
  | error e => exact ⟨e, (Except.error.inj h).symm⟩

/-- The two steps of a successful sequence. -/
theorem except_bind_eq_ok {ε α β : Type} {x : Except ε α} {f : α → Except ε β} {b : β} :
    x >>= f = .ok b ↔ ∃ a, x = .ok a ∧ f a = .ok b := by
  cases x with
  | error e => simp [bind, Except.bind]
  | ok a => simp [bind, Except.bind]

/-- What fails in a sequence is one of its steps. -/
theorem except_bind_eq_error {ε α β : Type} {x : Except ε α} {f : α → Except ε β} {e : ε}
    (h : x >>= f = .error e) : x = .error e ∨ ∃ a, x = .ok a ∧ f a = .error e := by
  cases x with
  | error e' =>
    cases h
    exact .inl rfl
  | ok a => exact .inr ⟨a, rfl, h⟩

/-- What two lists related element by element have at one index. -/
theorem forall₂_getElem? {α β : Type} {R : α → β → Prop} {l : List α} {m : List β}
    (h : List.Forall₂ R l m) {i : ℕ} {a : α} (ha : l[i]? = some a) :
    ∃ b, m[i]? = some b ∧ R a b := by
  induction h generalizing i with
  | nil => simp at ha
  | cons hab _ ih =>
    cases i with
    | zero => exact ⟨_, rfl, Option.some.inj ha ▸ hab⟩
    | succ i => exact ih ha

/-- A member of one of two such lists has its partner in the other. -/
theorem forall₂_exists_of_mem {α β : Type} {R : α → β → Prop} {l : List α} {m : List β} {a : α}
    (h : List.Forall₂ R l m) (ha : a ∈ l) : ∃ b ∈ m, R a b := by
  obtain ⟨i, hi⟩ := List.getElem?_of_mem ha
  obtain ⟨b, hb, hab⟩ := forall₂_getElem? h hi
  exact ⟨b, List.mem_of_getElem? hb, hab⟩

/-- Two lists of one length, related at each index. -/
theorem forall₂_of_getElem? {α β : Type} {R : α → β → Prop} {l : List α} {m : List β}
    (hlength : l.length = m.length) (h : ∀ (i : ℕ) a b, l[i]? = some a → m[i]? = some b → R a b) :
    List.Forall₂ R l m :=
  List.forall₂_iff_get.mpr ⟨hlength, fun i h₁ h₂ =>
    h i _ _ (List.getElem?_eq_getElem h₁) (List.getElem?_eq_getElem h₂)⟩

/-- `collect::<Result<Vec<_>, _>>()` succeeds when every element does. -/
theorem mapM_eq_ok_iff {ε α β : Type} {f : α → Except ε β} {l : List α} {r : List β} :
    l.mapM f = .ok r ↔ List.Forall₂ (fun a b => f a = .ok b) l r := by
  induction l generalizing r with
  | nil => simp [pure, Except.pure, eq_comm]
  | cons a l ih =>
    rw [List.mapM_cons, except_bind_eq_ok]
    simp only [except_bind_eq_ok, ih, List.forall₂_cons_left_iff, pure, Except.pure]
    constructor
    · rintro ⟨b, hb, bs, hbs, h⟩
      exact ⟨b, bs, hb, hbs, (Except.ok.inj h).symm⟩
    · rintro ⟨b, bs, hb, hbs, rfl⟩
      exact ⟨b, hb, bs, hbs, rfl⟩

theorem mapM_eq_error {ε α β : Type} {f : α → Except ε β} {l : List α} {e : ε}
    (h : l.mapM f = .error e) : ∃ a ∈ l, f a = .error e := by
  induction l with
  | nil => cases h
  | cons a l ih =>
    rw [List.mapM_cons] at h
    rcases except_bind_eq_error h with ha | ⟨b, -, h⟩
    · exact ⟨a, List.mem_cons_self, ha⟩
    · rcases except_bind_eq_error h with hl | ⟨bs, -, h⟩
      · obtain ⟨a, ha, he⟩ := ih hl
        exact ⟨a, List.mem_cons_of_mem _ ha, he⟩
      · cases h

/-- A loop of checks succeeds when each of them does. -/
theorem forM_eq_ok_iff {ε α : Type} {l : List α} {check : α → Except ε Unit} :
    forM l check = .ok () ↔ ∀ a ∈ l, check a = .ok () := by
  induction l with
  | nil => simp [pure, Except.pure]
  | cons a l ih =>
    rw [List.forM_cons, except_bind_eq_ok, List.forall_mem_cons, ← ih]
    constructor
    · rintro ⟨⟨⟩, ha, hl⟩
      exact ⟨ha, hl⟩
    · rintro ⟨ha, hl⟩
      exact ⟨(), ha, hl⟩

/-- Elements that each have a partner have a list of partners. -/
theorem exists_forall₂ {α β : Type} {R : α → β → Prop} {l : List α} (h : ∀ a ∈ l, ∃ b, R a b) :
    ∃ bs, List.Forall₂ R l bs := by
  induction l with
  | nil => exact ⟨[], .nil⟩
  | cons a l ih =>
    obtain ⟨b, hb⟩ := h a List.mem_cons_self
    obtain ⟨bs, hbs⟩ := ih fun a ha => h a (List.mem_cons_of_mem _ ha)
    exact ⟨b :: bs, .cons hb hbs⟩

/-- Collecting succeeds with results that all satisfy `Q` when each step does. -/
theorem exists_mapM_eq_ok_iff {ε α β : Type} {f : α → Except ε β} {Q : β → Prop} {l : List α} :
    (∃ r, l.mapM f = .ok r ∧ ∀ b ∈ r, Q b) ↔ ∀ a ∈ l, ∃ b, f a = .ok b ∧ Q b := by
  simp only [mapM_eq_ok_iff]
  induction l with
  | nil => simp
  | cons a l ih =>
    rw [List.forall_mem_cons, ← ih]
    constructor
    · rintro ⟨_, _ | ⟨hb, hbs⟩, hQ⟩
      obtain ⟨hQb, hQbs⟩ := List.forall_mem_cons.mp hQ
      exact ⟨⟨_, hb, hQb⟩, _, hbs, hQbs⟩
    · rintro ⟨⟨b, hb, hQb⟩, bs, hbs, hQbs⟩
      exact ⟨b :: bs, .cons hb hbs, List.forall_mem_cons.mpr ⟨hQb, hQbs⟩⟩

/-- What every step of a fallible loop keeps holds when the loop returns. -/
theorem foldlM_invariant {ε α β : Type} {f : β → α → Except ε β} (P : β → Prop)
    (hstep : ∀ acc x acc', f acc x = .ok acc' → P acc → P acc') {l : List α} {acc out : β}
    (h : l.foldlM f acc = .ok out) (hacc : P acc) : P out := by
  induction l generalizing acc with
  | nil => exact Except.ok.inj h ▸ hacc
  | cons x l ih =>
    rw [List.foldlM_cons] at h
    obtain ⟨next, hnext, h⟩ := except_bind_eq_ok.mp h
    exact ih h (hstep acc x next hnext hacc)

/-- The same, with an invariant that speaks of the elements done so far. -/
theorem foldlM_induct {ε α β : Type} {f : β → α → Except ε β} (I : List α → β → Prop)
    (hstep : ∀ done x acc acc', f acc x = .ok acc' → I done acc → I (done ++ [x]) acc')
    {l : List α} {acc out : β} (h : l.foldlM f acc = .ok out) (hacc : I [] acc) : I l out := by
  have hrest : ∀ rest done acc, rest.foldlM f acc = .ok out → I done acc → I (done ++ rest) out := by
    intro rest
    induction rest with
    | nil =>
      intro done acc h hacc
      rw [List.append_nil]
      exact Except.ok.inj h ▸ hacc
    | cons x rest ih =>
      intro done acc h hacc
      rw [List.foldlM_cons] at h
      obtain ⟨next, hnext, h⟩ := except_bind_eq_ok.mp h
      have hend := ih (done ++ [x]) next h (hstep done x acc next hnext hacc)
      rwa [List.append_assoc] at hend
  exact hrest l [] acc h hacc

end ParquetAzureFdw
