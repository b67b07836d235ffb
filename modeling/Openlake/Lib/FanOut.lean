import Openlake.Lib.Effects

/-!
# Programs that fan out to parties

A program works in rounds: it gives every party a task, waits until all the tasks
are done and goes on with their results. A task is a list of calls, and a call is
one step of its party. Between rounds a program takes and gives back locks.
-/

set_option autoImplicit false

namespace Lib.FanOut
open Lib.Effects

variable {n : ℕ} {κ σ ε α β ρ : Type}

inductive Task (σ ρ : Type) where
  | done (r : ρ)
  | call (next : σ → σ) (rest : σ → Task σ ρ)

namespace Task

def run : Task σ ρ → σ → ρ × σ
  | .done r,s => (r,s)
  | .call next rest,s => (rest s).run (next s)

def ask (x : EStateM ε σ α) : Task σ (Except ε α) :=
  .call (fun s => left (x s)) (fun s => .done (value (x s)))

/-- Asks, whatever comes back, and goes on. -/
def before (x : EStateM ε σ α) (t : Task σ ρ) : Task σ ρ := .call (fun s => left (x s)) (fun _ => t)

/-- Asks and goes on with the answer unless it is an error. -/
def askThen (x : EStateM ε σ α) (t : α → Task σ (Except ε β)) : Task σ (Except ε β) :=
  .call (fun s => left (x s)) (fun s =>
    match value (x s) with
    | .ok a => t a
    | .error e => .done (.error e))

end Task

inductive Prog (n : ℕ) (κ σ ε α : Type) : Type 1 where
  | done (r : Except ε α)
  | fan {ρ : Type} (tasks : Fin n → Task σ ρ) (rest : (Fin n → ρ) → Prog n κ σ ε α)
  | acquire (k : κ) (rest : Prog n κ σ ε α)
  | release (k : κ) (rest : Prog n κ σ ε α)

namespace Prog

/-- Goes on with the outcome. -/
def andThen : Prog n κ σ ε α → (Except ε α → Prog n κ σ ε β) → Prog n κ σ ε β
  | .done r,f => f r
  | .fan tasks rest,f => .fan tasks (fun rs => (rest rs).andThen f)
  | .acquire k rest,f => .acquire k (rest.andThen f)
  | .release k rest,f => .release k (rest.andThen f)

def bind (p : Prog n κ σ ε α) (f : α → Prog n κ σ ε β) : Prog n κ σ ε β :=
  p.andThen (fun r =>
    match r with
    | .ok a => f a
    | .error e => .done (.error e))

instance : Monad (Prog n κ σ ε) where
  pure a := .done (.ok a)
  bind := bind

def ofExcept (r : Except ε α) : Prog n κ σ ε α := .done r

def ask (tasks : Fin n → Task σ ρ) : Prog n κ σ ε (Fin n → ρ) := .fan tasks (fun rs => .done (.ok rs))

/-- The lock is given back whatever the outcome. -/
def withLock (k : κ) (p : Prog n κ σ ε α) : Prog n κ σ ε α :=
  .acquire k (p.andThen (fun r => .release k (.done r)))

/-- The program with nothing else running. -/
def run : Prog n κ σ ε α → EStateM ε (Fin n → σ) α
  | .done r => lift r
  | .fan tasks rest => fun s =>
    (rest (fun i => ((tasks i).run (s i)).1)).run (fun i => ((tasks i).run (s i)).2)
  | .acquire _ rest => rest.run
  | .release _ rest => rest.run

theorem run_andThen (p : Prog n κ σ ε α) (f : Except ε α → Prog n κ σ ε β) (s : Fin n → σ) :
    (p.andThen f).run s = (f (value (p.run s))).run (left (p.run s)) := by
  induction p generalizing s with
  | done r => cases r <;> rfl
  | fan tasks rest ih => exact ih _ _
  | acquire k rest ih => exact ih s
  | release k rest ih => exact ih s

theorem run_bind (p : Prog n κ σ ε α) (f : α → Prog n κ σ ε β) :
    (p >>= f).run = p.run >>= fun a => (f a).run := by
  funext s
  show (p.andThen _).run s = EStateM.bind p.run (fun a => (f a).run) s
  rw [run_andThen, EStateM.bind]
  cases p.run s <;> rfl

theorem run_ask (tasks : Fin n → Task σ ρ) (s : Fin n → σ) :
    (ask tasks : Prog n κ σ ε (Fin n → ρ)).run s =
      .ok (fun i => ((tasks i).run (s i)).1) (fun i => ((tasks i).run (s i)).2) := rfl

theorem run_ofExcept (r : Except ε α) : (ofExcept r : Prog n κ σ ε α).run = lift r := rfl

theorem run_withLock (k : κ) (p : Prog n κ σ ε α) : (withLock k p).run = p.run := by
  funext s
  show (p.andThen _).run s = p.run s
  rw [run_andThen]
  show lift (value (p.run s)) (left (p.run s)) = p.run s
  cases p.run s <;> rfl

end Prog

end Lib.FanOut
