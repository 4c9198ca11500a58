import Mathlib.Data.List.Basic

namespace CocoonFs.IoSteps

/-- A computation on a state that either panics or hands the state back together with
its result, also when that is an error. -/
def IoM (P E σ α : Type) := σ → Except P (Except E α × σ)

variable {P E σ α β : Type}

def panic (p : P) : IoM P E σ α := fun _ => .error p

def err (e : E) : IoM P E σ α := fun s => .ok (.error e, s)

def bind (m : IoM P E σ α) (f : α → IoM P E σ β) : IoM P E σ β := fun s =>
  match m s with
  | .error p => .error p
  | .ok (.error e, s) => .ok (.error e, s)
  | .ok (.ok a, s) => f a s

instance : Monad (IoM P E σ) where
  pure a := fun s => .ok (.ok a, s)
  bind := bind

def get : IoM P E σ σ := fun s => .ok (.ok s, s)

def set (s : σ) : IoM P E σ Unit := fun _ => .ok (.ok (), s)

def require (p : P) (c : Prop) [Decidable c] : IoM P E σ Unit :=
  if c then pure () else panic p

def orErr (e : E) (c : Prop) [Decidable c] : IoM P E σ Unit :=
  if c then pure () else err e

def liftExcept : Except P α → IoM P E σ α
  | .ok a => pure a
  | .error p => panic p

/-- From this state the computation returns normally, with this value and state. -/
def Yields (m : IoM P E σ α) (s : σ) (a : α) (s' : σ) : Prop := m s = .ok (.ok a, s')

theorem Yields.pure (a : α) (s : σ) : Yields (Pure.pure a : IoM P E σ α) s a s := rfl

variable {m : IoM P E σ α} {a : α}

theorem Yields.bind_eq {s s' : σ} (hm : Yields m s a s')
    (f : α → IoM P E σ β) : (m >>= f) s = f a s' := by
  change IoSteps.bind m f s = _
  rw [IoSteps.bind, hm]

variable {f : α → IoM P E σ β} {s s' s'' : σ}

theorem Yields.bind {b : β}
    (hm : Yields m s a s') (hf : Yields (f a) s' b s'') : Yields (m >>= f) s b s'' :=
  (hm.bind_eq f).trans hf

def Fails (m : IoM P E σ α) (s : σ) (e : E) (s' : σ) : Prop := m s = .ok (.error e, s')

theorem Yields.bind_fails {e : E}
    (hm : Yields m s a s') (hf : Fails (f a) s' e s'') : Fails (m >>= f) s e s'' :=
  (hm.bind_eq f).trans hf

theorem Fails.bind {s s' : σ} {e : E} (hm : Fails m s e s')
    (f : α → IoM P E σ β) : Fails (m >>= f) s e s' := by
  unfold Fails at hm ⊢
  change IoSteps.bind m f s = _
  rw [IoSteps.bind, hm]

theorem Fails.orErr {e : E} {c : Prop} [Decidable c] (h : ¬c) (s : σ) :
    Fails (IoSteps.orErr e c : IoM P E σ Unit) s e s := by
  rw [IoSteps.orErr, if_neg h]
  rfl

theorem Yields.get (s : σ) : Yields (IoSteps.get : IoM P E σ σ) s s s := rfl

theorem Yields.set (s s' : σ) : Yields (IoSteps.set s' : IoM P E σ Unit) s () s' := rfl

theorem Yields.require {p : P} {c : Prop} [Decidable c] (h : c) (s : σ) :
    Yields (IoSteps.require p c : IoM P E σ Unit) s () s := by
  rw [IoSteps.require, if_pos h]
  exact Yields.pure () s

theorem Yields.orErr {e : E} {c : Prop} [Decidable c] (h : c) (s : σ) :
    Yields (IoSteps.orErr e c : IoM P E σ Unit) s () s := by
  rw [IoSteps.orErr, if_pos h]
  exact Yields.pure () s

theorem Yields.liftExcept {x : Except P α} (h : x = .ok a) (s : σ) :
    Yields (IoSteps.liftExcept x : IoM P E σ α) s a s := by
  rw [h]
  exact Yields.pure a s

end CocoonFs.IoSteps
