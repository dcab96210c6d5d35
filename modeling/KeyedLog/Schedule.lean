import KeyedLog.Program

/-! Interleavings of programs that share a state and a container. A program is interrupted only
before and after its calls, at waits and at pauses. -/
namespace KeyedLog

variable {σ α : Type}

/-- What may happen to a call. -/
inductive Fate where
  | served
  /-- It fails and has no effect. -/
  | refused (e : TableError)
  /-- It takes effect and is reported as failed. -/
  | lost (e : TableError)
deriving DecidableEq, Repr

def Container.serve (c : Container) (q : Call) : Fate → Container × Except TableError q.Answer
  | .served => c.perform q
  | .refused e => (c, .error e)
  | .lost e => ((c.perform q).1, .error e)

namespace Program

def advance : Program σ α → σ → Program σ α × σ
  | .get k, s => (k s).advance s
  | .set s k, _ => k.advance s
  | p, s => (p, s)

theorem run_advance (p : Program σ α) (hasTime : Bool) (c : Container) (s : σ) :
    (p.advance s).1.run hasTime c (p.advance s).2 = p.run hasTime c s := by
  induction p generalizing s with
  | get k ih => exact ih s s
  | set t k ih => exact ih t
  | ret | fail | await | clock | call | pause => rfl

end Program

/-- Programs in flight, each under a number of its own. -/
structure Pool (σ α : Type) where
  container : Container
  state : σ
  threads : Nat → Option (Program σ α)

namespace Pool

def assign (y : Pool σ α) (i : Nat) (p : Option (Program σ α)) : Pool σ α :=
  { y with threads := fun j => if j = i then p else y.threads j }

def goOn (y : Pool σ α) (i : Nat) (p : Program σ α) : Pool σ α :=
  { y with state := (p.advance y.state).2 }.assign i (some (p.advance y.state).1)

/-- What the surroundings of a pool may do to it. -/
structure Surroundings (σ : Type) where
  /-- The fates that a call may meet. -/
  fates : Call → Fate → Prop
  /-- The changes that the shared state may undergo at any time. -/
  drifts : σ → σ → Prop

inductive Event (σ α : Type) where
  | start (i : Nat) (p : Program σ α)
  | proceed (i : Nat)
  | call (i : Nat) (q : Call) (fate : Fate)
  | finish (i : Nat) (outcome : Except TableError α)
  | drift

inductive Step (around : Surroundings σ) : Pool σ α → Event σ α → Pool σ α → Prop
  | start {y : Pool σ α} {i : Nat} (p : Program σ α) (h : y.threads i = none) :
      Step around y (.start i p) (y.assign i (some p))
  | get {y : Pool σ α} {i : Nat} {k} (h : y.threads i = some (.get k)) :
      Step around y (.proceed i) (y.goOn i (.get k))
  | set {y : Pool σ α} {i : Nat} {s k} (h : y.threads i = some (.set s k)) :
      Step around y (.proceed i) (y.goOn i (.set s k))
  | awaited {y : Pool σ α} {i : Nat} {bounded ready k}
      (h : y.threads i = some (.await bounded ready k)) (hr : ready y.state = true) :
      Step around y (.proceed i) (y.goOn i (k true))
  | gaveUp {y : Pool σ α} {i : Nat} {ready k}
      (h : y.threads i = some (.await true ready k)) (hr : ready y.state = false) :
      Step around y (.proceed i) (y.goOn i (k false))
  | clock {y : Pool σ α} {i : Nat} {k} (hasTime : Bool) (h : y.threads i = some (.clock k)) :
      Step around y (.proceed i) (y.goOn i (k hasTime))
  | pause {y : Pool σ α} {i point : Nat} {k} (h : y.threads i = some (.pause point k)) :
      Step around y (.proceed i) (y.goOn i k)
  | call {y : Pool σ α} {i : Nat} {q k} (fate : Fate) (h : y.threads i = some (.call q k))
      (hf : around.fates q fate) :
      Step around y (.call i q fate)
        ({ y with container := (y.container.serve q fate).1 }.assign i
          (some (k (y.container.serve q fate).2)))
  | returned {y : Pool σ α} {i : Nat} {a} (h : y.threads i = some (.ret a)) :
      Step around y (.finish i (.ok a)) (y.assign i none)
  | failed {y : Pool σ α} {i : Nat} {e} (h : y.threads i = some (.fail e)) :
      Step around y (.finish i (.error e)) (y.assign i none)
  | drift {y : Pool σ α} {s : σ} (h : around.drifts y.state s) :
      Step around y .drift { y with state := s }

inductive Steps (around : Surroundings σ) : Pool σ α → List (Event σ α) → Pool σ α → Prop
  | refl (y : Pool σ α) : Steps around y [] y
  | head {y z w : Pool σ α} {e es} (h : Step around y e z) (hs : Steps around z es w) :
      Steps around y (e :: es) w

theorem Steps.append {around : Surroundings σ} {y z w : Pool σ α} {es fs}
    (h : Steps around y es z) (h' : Steps around z fs w) : Steps around y (es ++ fs) w := by
  induction h with
  | refl => exact h'
  | head h _ ih => exact .head h (ih h')

/-- What every step keeps holds at the end if it holds at the start, as long as nothing happens but
what is allowed. -/
theorem Steps.keep {around : Surroundings σ} {I : Pool σ α → Prop} {ok : Event σ α → Prop}
    (hI : ∀ {y e z}, Step around y e z → ok e → I y → I z) {y z : Pool σ α} {es}
    (h : Steps around y es z) (hok : ∀ e ∈ es, ok e) (hy : I y) : I z := by
  induction h with
  | refl => exact hy
  | head h _ ih =>
    obtain ⟨he, hes⟩ := List.forall_mem_cons.1 hok
    exact ih hes (hI h he hy)

end Pool
end KeyedLog
