/-
# A program alone on a world

A program that runs alone changes the world by its own requests only, so what holds of
the world at each of its points can be proved along the program.  `Safe answers I E p h w J`
says that `p`, started after the history `h` in the world `w`, has `I` whenever it makes a
request, `E` when it fails, and `J a` when it returns `a`.  Sequences and loops have the
usual rules (`safe_bind`, `safe_mapM`, `safe_forM`): a loop carries an invariant that speaks
of the elements done so far.

Every point of every run has what was proved (`Run.safe`), and so has the end of a complete
execution (`Exec.safe`, and `Exec.wp` for what is proved of the history alone).
-/

import ParquetAzureFdw.Lib.Programs

namespace Programs

variable {Op : Type} {Reply : Op → Type} {ε α β W : Type}

section Safe

variable (answers : W → Event Reply → W → Prop) (I E : List (Event Reply) → W → Prop)

/-- The program has `I` at each request, `E` after an error and `J a` after the result `a`. -/
def Safe (p : Program Reply ε α) (h : List (Event Reply)) (w : W)
    (J : α → List (Event Reply) → W → Prop) : Prop :=
  match p with
  | .ret a => J a h w
  | .fail _ => E h w
  | .request op next =>
    I h w ∧ ∀ r w', answers w ⟨op, r⟩ w' → Safe (next r) (h ++ [⟨op, r⟩]) w' J

variable {answers I E} {h : List (Event Reply)} {w : W}

theorem safe_mono {p : Program Reply ε α} {J J' : α → List (Event Reply) → W → Prop}
    (hp : Safe answers I E p h w J) (hJ : ∀ a h w, J a h w → J' a h w) :
    Safe answers I E p h w J' := by
  induction p generalizing h w with
  | ret a => exact hJ a h w hp
  | fail e => exact hp
  | request op next ih => exact ⟨hp.1, fun r w' hanswer => ih r (hp.2 r w' hanswer)⟩

/-- What was proved along a program, and what follows from it. -/
theorem safe_weaken {I' E' : List (Event Reply) → W → Prop} {p : Program Reply ε α}
    {J J' : α → List (Event Reply) → W → Prop} (hp : Safe answers I E p h w J)
    (hI : ∀ h w, I h w → I' h w) (hE : ∀ h w, E h w → E' h w)
    (hJ : ∀ a h w, J a h w → J' a h w) : Safe answers I' E' p h w J' := by
  induction p generalizing h w with
  | ret a => exact hJ a h w hp
  | fail e => exact hE h w hp
  | request op next ih => exact ⟨hI h w hp.1, fun r w' hanswer => ih r (hp.2 r w' hanswer)⟩

/-- A world that answers in fewer ways. -/
theorem safe_of_answers {answers' : W → Event Reply → W → Prop} {p : Program Reply ε α}
    {J : α → List (Event Reply) → W → Prop} (hp : Safe answers I E p h w J)
    (hanswers : ∀ w event w', answers' w event w' → answers w event w') :
    Safe answers' I E p h w J := by
  induction p generalizing h w with
  | ret a => exact hp
  | fail e => exact hp
  | request op next ih => exact ⟨hp.1, fun r w' hanswer => ih r (hp.2 r w' (hanswers _ _ _ hanswer))⟩

/-- What holds at a request and at both ends holds now. -/
theorem safe_now {p : Program Reply ε α} {J : α → List (Event Reply) → W → Prop} {K : Prop}
    (hp : Safe answers I E p h w J) (hI : I h w → K) (hE : E h w → K) (hJ : ∀ a, J a h w → K) : K := by
  cases p with
  | ret a => exact hJ a hp
  | fail e => exact hE hp
  | request op next => exact hI hp.1

/-- A sequence: the second program starts where the first returned. -/
theorem safe_bind {p : Program Reply ε α} {f : α → Program Reply ε β}
    {J : α → List (Event Reply) → W → Prop} {J' : β → List (Event Reply) → W → Prop}
    (hp : Safe answers I E p h w J) (hf : ∀ a h w, J a h w → Safe answers I E (f a) h w J') :
    Safe answers I E (p >>= f) h w J' := by
  induction p generalizing h w with
  | ret a => exact hf a h w hp
  | fail e => exact hp
  | request op next ih => exact ⟨hp.1, fun r w' hanswer => ih r (hp.2 r w' hanswer)⟩

/-- A request, and what is done with the reply. -/
theorem safe_call_bind {op : Op} {f : Reply op → Program Reply ε α}
    {J : α → List (Event Reply) → W → Prop} (hI : I h w)
    (hf : ∀ r w', answers w ⟨op, r⟩ w' → Safe answers I E (f r) (h ++ [⟨op, r⟩]) w' J) :
    Safe answers I E (Program.call op >>= f) h w J :=
  ⟨hI, hf⟩

theorem safe_ofExcept {x : Except ε α} {J : α → List (Event Reply) → W → Prop}
    (hok : ∀ a, x = .ok a → J a h w) (herror : ∀ e, x = .error e → E h w) :
    Safe answers I E (Program.ofExcept x) h w J := by
  cases x with
  | ok a => exact hok a rfl
  | error e => exact herror e rfl

/-- A step without a request leaves the world as it is. -/
theorem safe_ofExcept_bind {x : Except ε α} {f : α → Program Reply ε β}
    {J : β → List (Event Reply) → W → Prop}
    (hok : ∀ a, x = .ok a → Safe answers I E (f a) h w J) (herror : ∀ e, x = .error e → E h w) :
    Safe answers I E (Program.ofExcept x >>= f) h w J := by
  cases x with
  | ok a => exact hok a rfl
  | error e => exact herror e rfl

/-- A loop that collects results.  The invariant speaks of the elements done and of their
results. -/
theorem safe_mapM {f : α → Program Reply ε β} {l : List α}
    {J : List α → List β → List (Event Reply) → W → Prop}
    (hstep : ∀ done a rest bs h w, l = done ++ a :: rest → J done bs h w →
      Safe answers I E (f a) h w fun b => J (done ++ [a]) (bs ++ [b]))
    (hinit : J [] [] h w) : Safe answers I E (l.mapM f) h w (J l) := by
  -- what is left of the loop, after the elements done
  have hrest : ∀ rest done bs h w, l = done ++ rest → J done bs h w →
      Safe answers I E (rest.mapM f) h w fun bs' => J l (bs ++ bs') := by
    intro rest
    induction rest with
    | nil =>
      intro done bs h w hl hJ
      rw [List.append_nil] at hl
      subst hl
      rw [List.mapM_nil]
      show J l (bs ++ []) h w
      rwa [List.append_nil]
    | cons a rest ih =>
      intro done bs h w hl hJ
      rw [List.mapM_cons]
      refine safe_bind (hstep done a rest bs h w hl hJ) fun b h₁ w₁ hb => ?_
      have hl' : l = (done ++ [a]) ++ rest := by rw [hl, List.append_assoc]; rfl
      refine safe_bind (ih (done ++ [a]) (bs ++ [b]) h₁ w₁ hl' hb) fun bs' h₂ w₂ hbs' => ?_
      rw [List.append_assoc] at hbs'
      exact hbs'
  exact hrest l [] [] h w rfl hinit

/-- A loop that collects nothing. -/
theorem safe_forM {f : α → Program Reply ε PUnit} {l : List α}
    {J : List α → List (Event Reply) → W → Prop}
    (hstep : ∀ done a rest h w, l = done ++ a :: rest → J done h w →
      Safe answers I E (f a) h w fun _ => J (done ++ [a]))
    (hinit : J [] h w) : Safe answers I E (l.forM f) h w fun _ => J l := by
  have hrest : ∀ rest done h w, l = done ++ rest → J done h w →
      Safe answers I E (rest.forM f) h w fun _ => J l := by
    intro rest
    induction rest with
    | nil =>
      intro done h w hl hJ
      rw [List.append_nil] at hl
      subst hl
      exact hJ
    | cons a rest ih =>
      intro done h w hl hJ
      have hl' : l = (done ++ [a]) ++ rest := by rw [hl, List.append_assoc]; rfl
      exact safe_bind (hstep done a rest h w hl hJ) fun _ h₁ w₁ ha => ih (done ++ [a]) h₁ w₁ hl' ha
  exact hrest l [] h w rfl hinit

/-- **What was proved along a program holds at every point of every run.** -/
theorem Run.safe {p : Program Reply ε α} {J : α → List (Event Reply) → W → Prop}
    {ls : List (Label Unit Reply)} {s : System Unit W Reply ε α}
    (run : Runs.Run (Step (fun _ => answers) fun _ _ => False) ⟨w, fun _ => p⟩ ls s)
    (hp : Safe answers I E p [] w J) : Safe answers I E (s.procs ()) (history () ls) s.world J := by
  induction run with
  | nil => exact hp
  | snoc run next ih =>
    cases next with
    | other h => exact h.elim
    | @request w₁ w' ps i op next r hproc hanswer =>
      have hsafe : Safe answers I E (ps ()) (history () _) w₁ J := ih
      rw [show ps () = _ from hproc] at hsafe
      rw [history_concat_request, if_pos rfl]
      simpa using hsafe.2 r w' hanswer

end Safe

/-! ### Complete executions -/

/-- `Exec answers p w es w' r`: run to its end, the program makes the requests `es`, takes the
world from `w` to `w'`, and ends with `r`. -/
inductive Exec (answers : W → Event Reply → W → Prop) :
    Program Reply ε α → W → List (Event Reply) → W → Except ε α → Prop
  | ret {a : α} {w : W} : Exec answers (.ret a) w [] w (.ok a)
  | fail {e : ε} {w : W} : Exec answers (.fail e) w [] w (.error e)
  | request {op : Op} {next : Reply op → Program Reply ε α} {r : Reply op} {w w₁ w' : W}
      {es : List (Event Reply)} {result : Except ε α} (hanswer : answers w ⟨op, r⟩ w₁)
      (rest : Exec answers (next r) w₁ es w' result) :
      Exec answers (.request op next) w (⟨op, r⟩ :: es) w' result

/-- What was proved along a program holds at its end. -/
theorem Exec.safe {answers : W → Event Reply → W → Prop} {I E : List (Event Reply) → W → Prop}
    {p : Program Reply ε α} {w w' : W} {es : List (Event Reply)} {result : Except ε α}
    (exec : Exec answers p w es w' result) {h : List (Event Reply)}
    {J : α → List (Event Reply) → W → Prop} (hp : Safe answers I E p h w J) :
    (∀ a, result = .ok a → J a (h ++ es) w') ∧ ∀ e, result = .error e → E (h ++ es) w' := by
  induction exec generalizing h with
  | ret =>
    rw [List.append_nil]
    exact ⟨fun a ha => Except.ok.inj ha ▸ hp, nofun⟩
  | fail =>
    rw [List.append_nil]
    exact ⟨nofun, fun _ _ => hp⟩
  | request hanswer rest ih =>
    have hnext := ih (hp.2 _ _ hanswer)
    rwa [List.append_assoc] at hnext

section Exec

variable {answers : W → Event Reply → W → Prop} {p : Program Reply ε α} {w w' : W}
  {es : List (Event Reply)} {result : Except ε α}

/-- What each answer keeps holds at the end. -/
theorem Exec.induct {I : List (Event Reply) → W → Prop} (exec : Exec answers p w es w' result)
    {h : List (Event Reply)} (hinit : I h w)
    (hstep : ∀ h w event w', I h w → answers w event w' → I (h ++ [event]) w') : I (h ++ es) w' := by
  induction exec generalizing h with
  | ret | fail => rwa [List.append_nil]
  | request hanswer rest ih =>
    have hend := ih (hstep _ _ _ _ hinit hanswer)
    rwa [List.append_assoc] at hend

/-- What a program keeps to holds of its requests and of its end. -/
theorem Exec.wp {allowed : List (Event Reply) → Op → Prop}
    {Q : List (Event Reply) → Except ε α → Prop} (exec : Exec answers p w es w' result)
    {h : List (Event Reply)} (hp : Programs.wp allowed p h Q) :
    (∀ event ∈ es, ∃ before, before <+: h ++ es ∧ allowed before event.1) ∧ Q (h ++ es) result := by
  induction exec generalizing h with
  | ret | fail =>
    rw [List.append_nil]
    exact ⟨by simp, hp⟩
  | @request op next r w w₁ w' es result hanswer rest ih =>
    obtain ⟨hrequests, hend⟩ := ih (hp.2 r)
    rw [List.append_assoc] at hrequests hend
    refine ⟨fun event hevent => ?_, hend⟩
    rcases List.mem_cons.mp hevent with rfl | hevent
    · exact ⟨h, List.prefix_append h _, hp.1⟩
    · exact hrequests event hevent

/-- An execution in a world with more in it. -/
theorem Exec.map {V : Type} {answers' : V → Event Reply → V → Prop} {f : W → V}
    (exec : Exec answers p w es w' result)
    (hf : ∀ w event w', answers w event w' → answers' (f w) event (f w')) :
    Exec answers' p (f w) es (f w') result := by
  induction exec with
  | ret => exact .ret
  | fail => exact .fail
  | request hanswer rest ih => exact .request (hf _ _ _ hanswer) ih

end Exec

end Programs
