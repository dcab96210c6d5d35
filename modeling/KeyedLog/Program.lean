import KeyedLog.Container

/-! Programs that share a state and call a container, as trees that can be suspended at each call.
-/
namespace KeyedLog

/-- A program over a shared state `σ`. Between two calls, waits or pauses it is not interrupted. -/
inductive Program (σ : Type) (α : Type) where
  | ret (a : α)
  | fail (e : TableError)
  | get (k : σ → Program σ α)
  | set (s : σ) (k : Program σ α)
  /-- Wait for a condition. A bounded wait may be given up, and then goes on with `false`. -/
  | await (bounded : Bool) (ready : σ → Bool) (k : Bool → Program σ α)
  /-- Ask whether any time is left. -/
  | clock (k : Bool → Program σ α)
  | call (q : Call) (k : Except TableError q.Answer → Program σ α)
  /-- A point at which others may run. -/
  | pause (point : Nat) (k : Program σ α)

namespace Program

variable {σ α β γ : Type}

def bind : Program σ α → (α → Program σ β) → Program σ β
  | .ret a, f => f a
  | .fail e, _ => .fail e
  | .get k, f => .get fun s => (k s).bind f
  | .set s k, f => .set s (k.bind f)
  | .await bounded ready k, f => .await bounded ready fun b => (k b).bind f
  | .clock k, f => .clock fun b => (k b).bind f
  | .call q k, f => .call q fun r => (k r).bind f
  | .pause point k, f => .pause point (k.bind f)

instance : Monad (Program σ) where
  pure := .ret
  bind := bind

theorem bind_ret (p : Program σ α) : p.bind .ret = p := by
  induction p with
  | ret | fail => rfl
  | get k ih => exact congrArg Program.get (funext ih)
  | set s k ih => exact congrArg (Program.set s) ih
  | await b r k ih => exact congrArg (Program.await b r) (funext ih)
  | clock k ih => exact congrArg Program.clock (funext ih)
  | call q k ih => exact congrArg (Program.call q) (funext ih)
  | pause n k ih => exact congrArg (Program.pause n) ih

theorem bind_assoc (p : Program σ α) (f : α → Program σ β) (g : β → Program σ γ) :
    (p.bind f).bind g = p.bind fun a => (f a).bind g := by
  induction p with
  | ret | fail => rfl
  | get k ih => exact congrArg Program.get (funext ih)
  | set s k ih => exact congrArg (Program.set s) ih
  | await b r k ih => exact congrArg (Program.await b r) (funext ih)
  | clock k ih => exact congrArg Program.clock (funext ih)
  | call q k ih => exact congrArg (Program.call q) (funext ih)
  | pause n k ih => exact congrArg (Program.pause n) ih

instance : LawfulMonad (Program σ) :=
  LawfulMonad.mk' (Program σ) (fun p => bind_ret p) (fun _ _ => rfl) bind_assoc

/-- Go on with the outcome, be it a failure. -/
def attempt : Program σ α → Program σ (Except TableError α)
  | .ret a => .ret (.ok a)
  | .fail e => .ret (.error e)
  | .get k => .get fun s => (k s).attempt
  | .set s k => .set s k.attempt
  | .await bounded ready k => .await bounded ready fun b => (k b).attempt
  | .clock k => .clock fun b => (k b).attempt
  | .call q k => .call q fun r => (k r).attempt
  | .pause point k => .pause point k.attempt

def ofExcept : Except TableError α → Program σ α
  | .ok a => .ret a
  | .error e => .fail e

def read : Program σ σ := .get .ret

def modify (f : σ → σ) : Program σ Unit := .get fun s => .set (f s) (.ret ())

/-- Run a last step, whether the program succeeds or fails. -/
def ensuring (p : Program σ α) (last : Program σ Unit) : Program σ α := do
  let outcome ← p.attempt
  last
  ofExcept outcome

def checkTime : Program σ Unit := .clock fun left => if left then .ret () else .fail .timeout

/-- Wait for a condition as long as time is left. -/
def waitUntil (ready : σ → Bool) : Program σ Unit :=
  .await true ready fun met => if met then .ret () else .fail .timeout

def waitForever (ready : σ → Bool) : Program σ Unit :=
  .await false ready fun met => if met then .ret () else .fail .timeout

/-- A call that is made regardless of the time. -/
def ask (q : Call) : Program σ q.Answer := .call q ofExcept

/-- A call that is made if any time is left. -/
def request (q : Call) : Program σ q.Answer := do
  checkTime
  ask q

/-- Run alone, from start to end. A condition that is not met then never will be. -/
def run (hasTime : Bool) : Program σ α → Container → σ → Except TableError α × Container × σ
  | .ret a, c, s => (.ok a, c, s)
  | .fail e, c, s => (.error e, c, s)
  | .get k, c, s => (k s).run hasTime c s
  | .set s k, c, _ => k.run hasTime c s
  | .await _ ready k, c, s => (k (ready s)).run hasTime c s
  | .clock k, c, s => (k hasTime).run hasTime c s
  | .call q k, c, s =>
    let (c, r) := c.perform q
    (k r).run hasTime c s
  | .pause _ k, c, s => k.run hasTime c s

end Program
end KeyedLog
