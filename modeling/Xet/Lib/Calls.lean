import Mathlib.Logic.Basic

/-! Programs as trees of calls to a shared object. A program keeps nothing in the object but what
its calls put there, so it can be stopped at every call, and what holds at every stop is proved
call by call. -/
namespace Calls

inductive Prog (Call : Type) (Reply : Call → Type) (α : Type) where
  | done (a : α)
  | call (c : Call) (next : Reply c → Prog Call Reply α)

variable {Call : Type} {Reply : Call → Type} {σ α β ε : Type}

namespace Prog

def bind : Prog Call Reply α → (α → Prog Call Reply β) → Prog Call Reply β
  | done a, f => f a
  | call c next, f => call c fun r => (next r).bind f

instance : Monad (Prog Call Reply) where
  pure := done
  bind := bind

def perform (c : Call) : Prog Call Reply (Reply c) := call c done

def ignore (p : Prog Call Reply α) : Prog Call Reply Unit := do
  let _ ← p
  pure ()

section
variable (step : (c : Call) → σ → Reply c × σ)

def run : Prog Call Reply α → σ → α × σ
  | done a, s => (a, s)
  | call c next, s => (next (step c s).1).run (step c s).2

def stopped : Prog Call Reply α → Nat → σ → σ
  | _, 0, s => s
  | done _, _ + 1, s => s
  | call c next, k + 1, s => (next (step c s).1).stopped k (step c s).2

/-- From `s`, every call leaves the object in `I`, and the program ends with a result in `Q`. -/
def Meets (I : σ → Prop) (Q : α → σ → Prop) : Prog Call Reply α → σ → Prop
  | done a, s => Q a s
  | call c next, s => I (step c s).2 ∧ (next (step c s).1).Meets I Q (step c s).2

end

section
variable {step : (c : Call) → σ → Reply c × σ} {I J : σ → Prop} {s : σ}

theorem run_bind (p : Prog Call Reply α) (f : α → Prog Call Reply β) (s : σ) :
    (p >>= f).run step s = (f (p.run step s).1).run step (p.run step s).2 := by
  induction p generalizing s with
  | done a => rfl
  | call c next ih => exact ih _ _

theorem run_exceptBind (p : ExceptT ε (Prog Call Reply) α) (f : α → ExceptT ε (Prog Call Reply) β)
    (s : σ) : run step (p >>= f : ExceptT ε (Prog Call Reply) β) s =
      match run step p s with
      | (.ok a, t) => run step (f a) t
      | (.error e, t) => (.error e, t) := by
  refine (run_bind p _ s).trans ?_
  cases run step p s with
  | mk r t => cases r <;> rfl

theorem run_adapt {δ : Type} (f : ε → δ) (p : ExceptT ε (Prog Call Reply) α) (s : σ) :
    run step (p.adapt f) s = ((run step p s).1.mapError f, (run step p s).2) :=
  run_bind p (fun r => pure (r.mapError f)) s

variable {p : Prog Call Reply α} {Q : α → σ → Prop}

theorem Meets.run (h : p.Meets step I Q s) : Q (p.run step s).1 (p.run step s).2 := by
  induction p generalizing s with
  | done a => exact h
  | call c next ih => exact ih _ h.2

theorem Meets.stopped (start : I s) (h : p.Meets step I Q s) (k : Nat) : I (p.stopped step k s) := by
  induction p generalizing s k with
  | done a => cases k <;> exact start
  | call c next ih =>
    cases k with
    | zero => exact start
    | succ k => exact ih _ h.1 h.2 k

theorem exists_stopped (p : Prog Call Reply α) (s : σ) : ∃ k, p.stopped step k s = (p.run step s).2 := by
  induction p generalizing s with
  | done a => exact ⟨0, rfl⟩
  | call c next ih =>
    obtain ⟨k, ended⟩ := ih (step c s).1 (step c s).2
    exact ⟨k + 1, ended⟩

theorem stopped_zero (p : Prog Call Reply α) (s : σ) : p.stopped step 0 s = s := by
  cases p <;> rfl

theorem stopped_bind_left (p : Prog Call Reply α) (f : α → Prog Call Reply β) (k : Nat) (s : σ) :
    ∃ j, (p >>= f).stopped step j s = p.stopped step k s := by
  induction p generalizing k s with
  | done a =>
    refine ⟨0, (stopped_zero _ s).trans ?_⟩
    cases k <;> rfl
  | call c next ih =>
    cases k with
    | zero => exact ⟨0, (stopped_zero _ s).trans (stopped_zero _ s).symm⟩
    | succ k =>
      obtain ⟨j, same⟩ := ih (step c s).1 k (step c s).2
      exact ⟨j + 1, same⟩

theorem stopped_bind_right (p : Prog Call Reply α) (f : α → Prog Call Reply β) (k : Nat) (s : σ) :
    ∃ j, (p >>= f).stopped step j s = (f (p.run step s).1).stopped step k (p.run step s).2 := by
  induction p generalizing s with
  | done a => exact ⟨k, rfl⟩
  | call c next ih =>
    obtain ⟨j, same⟩ := ih (step c s).1 (step c s).2
    exact ⟨j + 1, same⟩

theorem stopped_mono {R : σ → σ → Prop} (refl : ∀ s, R s s) (trans : ∀ s t u, R s t → R t u → R s u)
    (forward : ∀ c s, R s (step c s).2) (p : Prog Call Reply α) {j k : Nat} (le : j ≤ k) (s : σ) :
    R (p.stopped step j s) (p.stopped step k s) := by
  induction p generalizing j k s with
  | done a => cases j <;> cases k <;> exact refl s
  | call c next ih =>
    cases k with
    | zero =>
      cases Nat.le_zero.mp le
      exact refl s
    | succ k =>
      cases j with
      | zero =>
        have later := ih (step c s).1 (Nat.zero_le k) (step c s).2
        rw [stopped_zero] at later
        exact trans _ _ _ (forward c s) later
      | succ j => exact ih _ (Nat.le_of_succ_le_succ le) _

theorem run_forward {R : σ → σ → Prop} (refl : ∀ s, R s s) (trans : ∀ s t u, R s t → R t u → R s u)
    (forward : ∀ c s, R s (step c s).2) (p : Prog Call Reply α) (s : σ) : R s (p.run step s).2 := by
  induction p generalizing s with
  | done a => exact refl s
  | call c next ih => exact trans _ _ _ (forward c s) (ih _ _)

theorem Meets.mono {R : α → σ → Prop} (h : p.Meets step I Q s) (weaker : ∀ t, I t → J t) (post : ∀ a t, Q a t → R a t) :
    p.Meets step J R s := by
  induction p generalizing s with
  | done a => exact post a s h
  | call c next ih => exact ⟨weaker _ h.1, ih _ h.2⟩

theorem Meets.imp {R : α → σ → Prop} (h : p.Meets step I Q s) (post : ∀ a t, Q a t → R a t) : p.Meets step I R s :=
  h.mono (fun _ kept => kept) post

theorem Meets.final (start : I s) (h : p.Meets step I Q s) : p.Meets step I (fun a t => Q a t ∧ I t) s := by
  induction p generalizing s with
  | done a => exact ⟨h, start⟩
  | call c next ih => exact ⟨h.1, ih _ h.1 h.2⟩

theorem meets_perform {c : Call} {Q : Reply c → σ → Prop} :
    (perform c).Meets step I Q s ↔ I (step c s).2 ∧ Q (step c s).1 (step c s).2 := Iff.rfl

theorem meets_bind {Q : β → σ → Prop} {f : α → Prog Call Reply β} :
    (p >>= f).Meets step I Q s ↔ p.Meets step I (fun a t => (f a).Meets step I Q t) s := by
  induction p generalizing s with
  | done a => exact Iff.rfl
  | call c next ih => exact and_congr Iff.rfl (ih _)

theorem Meets.bind {R : β → σ → Prop} {f : α → Prog Call Reply β} (h : p.Meets step I Q s)
    (rest : ∀ a t, Q a t → (f a).Meets step I R t) : (p >>= f).Meets step I R s :=
  meets_bind.mpr (h.imp rest)

theorem Meets.ignore (h : p.Meets step I Q s) : p.ignore.Meets step I (fun _ _ => True) s :=
  h.bind fun _ _ _ => trivial

theorem meets_exceptBind {Q : Except ε β → σ → Prop} {p : ExceptT ε (Prog Call Reply) α}
    {f : α → ExceptT ε (Prog Call Reply) β} :
    Meets step I Q (p >>= f : ExceptT ε (Prog Call Reply) β) s ↔
      Meets step I (fun r t => match r with
        | .ok a => Meets step I Q (f a) t
        | .error e => Q (.error e) t) p s := by
  refine (meets_bind (p := p)).trans ?_
  have cont : ∀ (r : Except ε α) (t : σ), Meets step I Q (ExceptT.bindCont f r) t ↔
      match r with
        | .ok a => Meets step I Q (f a) t
        | .error e => Q (.error e) t := by
    intro r t
    cases r <;> exact Iff.rfl
  simp only [cont]

theorem meets_lift {Q : Except ε α → σ → Prop} :
    Meets step I Q (liftM p : ExceptT ε (Prog Call Reply) α) s ↔
      p.Meets step I (fun a t => Q (.ok a) t) s :=
  meets_bind (p := p) (f := fun a => pure (Except.ok a))

end

/-- From `s`, every call is made in a state in which it may be. -/
def Each (step : (c : Call) → σ → Reply c × σ) (P : Call → σ → Prop) : Prog Call Reply α → σ → Prop
  | done _, _ => True
  | call c next, s => P c s ∧ (next (step c s).1).Each step P (step c s).2

instance decidableEach (step : (c : Call) → σ → Reply c × σ) (P : Call → σ → Prop) [∀ c s, Decidable (P c s)] :
    (p : Prog Call Reply α) → (s : σ) → Decidable (p.Each step P s)
  | done _, _ => inferInstanceAs (Decidable True)
  | call c next, s =>
    have := decidableEach step P (next (step c s).1) (step c s).2
    inferInstanceAs (Decidable (P c s ∧ (next (step c s).1).Each step P (step c s).2))

theorem Each.mono {step : (c : Call) → σ → Reply c × σ} {P P' : Call → σ → Prop} {p : Prog Call Reply α} {s : σ}
    (h : p.Each step P s) (weaker : ∀ c s, P c s → P' c s) : p.Each step P' s := by
  induction p generalizing s with
  | done a => trivial
  | call c next ih => exact ⟨weaker c s h.1, ih _ h.2⟩

def Only (P : Call → Prop) : Prog Call Reply α → Prop
  | done _ => True
  | call c next => P c ∧ ∀ r, (next r).Only P

section
variable {P : Call → Prop} {step : (c : Call) → σ → Reply c × σ}

variable {p : Prog Call Reply α}

theorem Only.bind {f : α → Prog Call Reply β} (first : p.Only P) (others : ∀ a, (f a).Only P) : (p >>= f).Only P := by
  induction p with
  | done a => exact others a
  | call c next ih => exact ⟨first.1, fun r => ih r (first.2 r)⟩

theorem Only.exceptBind {p : ExceptT ε (Prog Call Reply) α} {f : α → ExceptT ε (Prog Call Reply) β}
    (first : Only P p) (others : ∀ a, Only P (f a)) : Only P (p >>= f : ExceptT ε (Prog Call Reply) β) := by
  apply Only.bind first
  intro r
  cases r with
  | ok a => exact others a
  | error e => trivial

theorem Only.adapt {δ : Type} {f : ε → δ} {p : ExceptT ε (Prog Call Reply) α} (h : Only P p) : Only P (p.adapt f) :=
  Only.bind h fun _ => trivial

theorem Only.mono {P' : Call → Prop} (h : p.Only P) (weaker : ∀ c, P c → P' c) : p.Only P' := by
  induction p with
  | done a => trivial
  | call c next ih => exact ⟨weaker c h.1, fun r => ih r (h.2 r)⟩

theorem Only.meets {s : σ} {I : σ → Prop} (h : p.Only P) (quiet : ∀ c, P c → (step c s).2 = s) (start : I s) :
    p.Meets step I (fun a t => a = (p.run step s).1 ∧ t = s) s := by
  induction p with
  | done a => exact ⟨rfl, rfl⟩
  | call c next ih =>
    have same := quiet c h.1
    have tail := ih (step c s).1 (h.2 _)
    simp only [Meets, Prog.run, same]
    exact ⟨start, tail⟩

theorem Only.run_state {s : σ} (h : p.Only P) (quiet : ∀ c, P c → (step c s).2 = s) : (p.run step s).2 = s :=
  (h.meets quiet (I := fun _ => True) trivial).run.2

theorem Only.run_bind_ok {p : ExceptT ε (Prog Call Reply) α}
    {f : α → ExceptT ε (Prog Call Reply) β} {s : σ} {b : β} (h : Only P p)
    (quiet : ∀ c, P c → (step c s).2 = s) :
    (run step (p >>= f : ExceptT ε (Prog Call Reply) β) s).1 = .ok b ↔
      ∃ a, (run step p s).1 = .ok a ∧ (run step (f a) s).1 = .ok b := by
  have same : (run step p s).2 = s := h.run_state quiet
  rw [run_exceptBind]
  cases outcome : run step p s with
  | mk r t =>
    rw [outcome] at same
    cases same
    cases r with
    | ok a => simp only [Except.ok.injEq, exists_eq_left']
    | error e => simp

/-- Objects that answer the calls of a program alike, and are not changed by them, are the same
to it. -/
theorem Only.run_congr {s t : σ} (h : p.Only P) (quiet : ∀ c, P c → (step c s).2 = s)
    (quiet' : ∀ c, P c → (step c t).2 = t) (agree : ∀ c, P c → (step c s).1 = (step c t).1) :
    (p.run step s).1 = (p.run step t).1 := by
  induction p with
  | done a => rfl
  | call c next ih =>
    simp only [Prog.run, quiet c h.1, quiet' c h.1, agree c h.1]
    exact ih _ (h.2 _)

end

end Prog

end Calls
