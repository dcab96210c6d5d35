import KeyedLog.Proofs.Run.Sessions

/-! Schedules: who takes the next step, and how it turns out. The runs of an extension are those
that a schedule makes happen. -/
namespace KeyedLog

namespace Pool

/-- A single step, with all that is up to chance. -/
inductive Move where
  | start (i : Nat) (op : Operation)
  /-- A thread goes on. Its call meets a fate, and time is left or not. -/
  | step (i : Nat) (fate : Fate) (hasTime : Bool)
  | lose (b : Bucket)

/-- Only an append cannot take effect and fail. -/
def allowed : Call → Fate → Bool
  | .append .., .lost _ => false
  | _, _ => true

theorem allowed_iff {q : Call} {fate : Fate} :
    allowed q fate = true ↔ surroundings.fates q fate := by
  cases q <;> cases fate <;> simp [allowed, surroundings]

section Step

variable {α : Type} {y z : Pool Tables α} {e : Event Tables α} {es : List (Event Tables α)}

/-- The step of a thread that is to run a program. A wait goes on when its condition is met, or when
it may be given up and no time is left. -/
def advance (y : Pool Tables α) (i : Nat) (fate : Fate) (hasTime : Bool) :
    Program Tables α → Option (Event Tables α × Pool Tables α)
  | .ret a => some (.finish i (.ok a), y.assign i none)
  | .fail e => some (.finish i (.error e), y.assign i none)
  | .get k => some (.proceed i, y.goOn i (.get k))
  | .set s k => some (.proceed i, y.goOn i (.set s k))
  | .await bounded ready k =>
    if ready y.state then some (.proceed i, y.goOn i (k true))
    else if bounded && !hasTime then some (.proceed i, y.goOn i (k false))
    else none
  | .clock k => some (.proceed i, y.goOn i (k hasTime))
  | .pause _ k => some (.proceed i, y.goOn i k)
  | .call q k =>
    if allowed q fate then
      some (.call i q fate, { y with container := (y.container.serve q fate).1 }.assign i
        (some (k (y.container.serve q fate).2)))
    else none

/-- Nobody starts by going on. -/
theorem step_of_advance {i : Nat} {fate : Fate} {hasTime : Bool} {p : Program Tables α}
    (hp : y.threads i = some p) (h : y.advance i fate hasTime p = some (e, z)) :
    Step surroundings y e z ∧ ∀ j q, e ≠ .start j q := by
  cases p with
  | ret a =>
    obtain ⟨rfl, rfl⟩ := Prod.mk.inj (Option.some.inj h)
    exact ⟨.returned hp, by simp⟩
  | fail e =>
    obtain ⟨rfl, rfl⟩ := Prod.mk.inj (Option.some.inj h)
    exact ⟨.failed hp, by simp⟩
  | get k =>
    obtain ⟨rfl, rfl⟩ := Prod.mk.inj (Option.some.inj h)
    exact ⟨.get hp, by simp⟩
  | set s k =>
    obtain ⟨rfl, rfl⟩ := Prod.mk.inj (Option.some.inj h)
    exact ⟨.set hp, by simp⟩
  | await bounded ready k =>
    rw [advance] at h
    split at h
    · next hr =>
      obtain ⟨rfl, rfl⟩ := Prod.mk.inj (Option.some.inj h)
      exact ⟨.awaited hp hr, by simp⟩
    · next hr =>
      split at h
      · next hb =>
        obtain ⟨rfl, rfl⟩ := Prod.mk.inj (Option.some.inj h)
        obtain rfl : bounded = true := by simp_all
        exact ⟨.gaveUp hp (by simpa using hr), by simp⟩
      · cases h
  | clock k =>
    obtain ⟨rfl, rfl⟩ := Prod.mk.inj (Option.some.inj h)
    exact ⟨.clock hasTime hp, by simp⟩
  | pause point k =>
    obtain ⟨rfl, rfl⟩ := Prod.mk.inj (Option.some.inj h)
    exact ⟨.pause hp, by simp⟩
  | call q k =>
    rw [advance] at h
    split at h
    · next ha =>
      obtain ⟨rfl, rfl⟩ := Prod.mk.inj (Option.some.inj h)
      exact ⟨.call fate hp (allowed_iff.1 ha), by simp⟩
    · cases h

/-- A thread starts, or goes on, and all goes well. -/
inductive Turn (α : Type) where
  | start (i : Nat) (p : Program Tables α)
  | go (i : Nat)

def Turn.take (y : Pool Tables α) : Turn α → Option (Event Tables α × Pool Tables α)
  | .start i p =>
    match y.threads i with
    | none => some (.start i p, y.assign i (some p))
    | some _ => none
  | .go i => (y.threads i).bind (advance y i .served true)

def play : List (Turn α) → Pool Tables α → List (Event Tables α) × Pool Tables α
  | [], y => ([], y)
  | t :: ts, y =>
    match t.take y with
    | none => play ts y
    | some (e, z) => (e :: (play ts z).1, (play ts z).2)

theorem step_of_take {t : Turn α} (h : t.take y = some (e, z)) :
    Step surroundings y e z ∧ ∀ i p, e = .start i p → t = .start i p := by
  cases t with
  | start i p =>
    rw [Turn.take] at h
    split at h
    · next hi =>
      obtain ⟨rfl, rfl⟩ := Prod.mk.inj (Option.some.inj h)
      refine ⟨.start p hi, fun j q hq => ?_⟩
      obtain ⟨rfl, rfl⟩ := Event.start.inj hq
      rfl
    · cases h
  | go i =>
    obtain ⟨p, hp, h⟩ := Option.bind_eq_some_iff.1 h
    obtain ⟨hstep, hno⟩ := step_of_advance hp h
    exact ⟨hstep, fun j q hq => absurd hq (hno j q)⟩

/-- When threads take turns, nothing starts out of turn. -/
theorem steps_play (ts : List (Turn α)) (y : Pool Tables α) :
    Steps surroundings y (play ts y).1 (play ts y).2 ∧
      ∀ i p, .start i p ∈ (play ts y).1 → Turn.start i p ∈ ts := by
  induction ts generalizing y with
  | nil => exact ⟨.refl y, fun i p h => (by cases h)⟩
  | cons t ts ih =>
    unfold play
    cases h : t.take y with
    | none =>
      obtain ⟨hsteps, hstarts⟩ := ih y
      exact ⟨hsteps, fun i p hp => List.mem_cons_of_mem _ (hstarts i p hp)⟩
    | some ez =>
      obtain ⟨hstep, hstart⟩ := step_of_take h
      obtain ⟨hsteps, hstarts⟩ := ih ez.2
      refine ⟨.head hstep hsteps, fun i p hp => ?_⟩
      rcases List.mem_cons.1 hp with hp | hp
      · exact hstart i p hp.symm ▸ List.mem_cons_self
      · exact List.mem_cons_of_mem _ (hstarts i p hp)

def ended : Program Tables α → Option (Except TableError α)
  | .ret a => some (.ok a)
  | .fail e => some (.error e)
  | _ => none

theorem step_of_ended {i : Nat} {r : Except TableError α}
    (h : (y.threads i).bind ended = some r) :
    Step surroundings y (.finish i r) (y.assign i none) := by
  obtain ⟨p, hp, hr⟩ := Option.bind_eq_some_iff.1 h
  cases p with
  | ret a =>
    obtain rfl := Option.some.inj hr
    exact .returned hp
  | fail e =>
    obtain rfl := Option.some.inj hr
    exact .failed hp
  | get | set | await | clock | call | pause => cases hr

def asking : Program Tables α → Option Call
  | .call q _ => some q
  | _ => none

theorem exists_of_asking {i : Nat} {q : Call} (h : (y.threads i).bind asking = some q) :
    ∃ k, y.threads i = some (.call q k) := by
  obtain ⟨p, hp, hq⟩ := Option.bind_eq_some_iff.1 h
  cases p with
  | call q k =>
    obtain rfl := Option.some.inj hq
    exact ⟨k, hp⟩
  | ret | fail | get | set | await | clock | pause => cases hq

def waiting : Program Tables α → Bool
  | .await bounded .. => !bounded
  | _ => false

def Event.isFinish : Event Tables α → Bool
  | .finish .. => true
  | _ => false

theorem not_finish_of_all (h : es.all (!·.isFinish) = true) (i : Nat)
    (r : Except TableError α) : .finish i r ∉ es := by
  intro hr
  cases List.all_eq_true.1 h _ hr

def Event.serves (i : Nat) (q : Call) : Event Tables α → Bool
  | .call j q' fate => decide (j = i ∧ fate = .served ∧ q' = q)
  | _ => false

theorem mem_of_serves {i : Nat} {q : Call} (h : es.any (Event.serves i q) = true) :
    .call i q .served ∈ es := by
  obtain ⟨e, he, hcall⟩ := List.any_eq_true.1 h
  cases e with
  | call j q' fate =>
    obtain ⟨rfl, rfl, rfl⟩ := of_decide_eq_true hcall
    exact he
  | start | proceed | finish | drift => cases hcall

def Event.proceeds (i : Nat) : Event Tables α → Bool
  | .proceed j => decide (j = i)
  | _ => false

theorem mem_of_proceeds {i : Nat} (h : es.any (Event.proceeds i) = true) : .proceed i ∈ es := by
  obtain ⟨e, he, hproceed⟩ := List.any_eq_true.1 h
  cases e with
  | proceed j =>
    obtain rfl := of_decide_eq_true hproceed
    exact he
  | start | call | finish | drift => cases hproceed

end Step

variable {config : Config} {name : String} {segment : Nat} {y z : Pool Tables Reply}
  {e : Event Tables Reply} {es : List (Event Tables Reply)} {m : Move} {ms : List Move}

/-- Nothing happens in place of a step that cannot be taken. -/
def exec (config : Config) (name : String) (y : Pool Tables Reply) :
    Move → Option (Event Tables Reply × Pool Tables Reply)
  | .start i op =>
    match y.threads i with
    | none => some (.start i (op.program config name), y.assign i (some (op.program config name)))
    | some _ => none
  | .step i fate hasTime => (y.threads i).bind (advance y i fate hasTime)
  | .lose b => some (.drift, { y with state := { y.state with cache := y.state.cache.erase b } })

def drive (config : Config) (name : String) :
    List Move → Pool Tables Reply → List (Event Tables Reply) × Pool Tables Reply
  | [], y => ([], y)
  | m :: ms, y =>
    match exec config name y m with
    | none => drive config name ms y
    | some (e, z) => (e :: (drive config name ms z).1, (drive config name ms z).2)

def Move.Fits (config : Config) (name : String) (segment : Nat) : Move → Prop
  | .start i op => op.Fits config name segment i
  | _ => True

theorem Event.Fits.of_ne_start (h : ∀ i p, e ≠ .start i p) : e.Fits config name segment := by
  cases e with
  | start i p => exact absurd rfl (h i p)
  | proceed | call | finish | drift => trivial

/-- A move is a step. -/
theorem step_of_exec (hm : m.Fits config name segment)
    (h : exec config name y m = some (e, z)) :
    Step surroundings y e z ∧ e.Fits config name segment := by
  cases m with
  | start i op =>
    rw [exec] at h
    split at h
    · next hi =>
      obtain ⟨rfl, rfl⟩ := Prod.mk.inj (Option.some.inj h)
      exact ⟨.start _ hi, op, hm, rfl⟩
    · cases h
  | step i fate hasTime =>
    obtain ⟨p, hp, h⟩ := Option.bind_eq_some_iff.1 h
    obtain ⟨hstep, he⟩ := step_of_advance hp h
    exact ⟨hstep, .of_ne_start he⟩
  | lose b =>
    obtain ⟨rfl, rfl⟩ := Prod.mk.inj (Option.some.inj h)
    exact ⟨.drift ⟨b, rfl⟩, trivial⟩

/-- A step is a move. -/
theorem exists_exec_of_step (h : Step surroundings y e z) (he : e.Fits config name segment) :
    ∃ m : Move, m.Fits config name segment ∧ exec config name y m = some (e, z) := by
  cases h with
  | @start i p hp =>
    obtain ⟨op, hop, rfl⟩ := he
    exact ⟨.start i op, hop, by simp [exec, hp]⟩
  | drift hd =>
    obtain ⟨b, rfl⟩ := hd
    exact ⟨.lose b, trivial, rfl⟩
  | @awaited i _ _ _ hp hr =>
    exact ⟨.step i .served true, trivial, by simp [exec, hp, advance, hr]⟩
  | @gaveUp i _ _ hp hr => exact ⟨.step i .served false, trivial, by simp [exec, hp, advance, hr]⟩
  | @clock i _ hasTime hp => exact ⟨.step i .served hasTime, trivial, by simp [exec, hp, advance]⟩
  | @call i _ _ fate hp hf =>
    exact ⟨.step i fate true, trivial, by simp [exec, hp, advance, allowed_iff.2 hf]⟩
  | @get i _ hp | @set i _ _ hp | @pause i _ _ hp | @returned i _ hp | @failed i _ hp =>
    exact ⟨.step i .served true, trivial, by simp [exec, hp, advance]⟩

theorem steps_drive (hms : ∀ m ∈ ms, m.Fits config name segment) (y : Pool Tables Reply) :
    Steps surroundings y (drive config name ms y).1 (drive config name ms y).2 ∧
      ∀ e ∈ (drive config name ms y).1, e.Fits config name segment := by
  induction ms generalizing y with
  | nil => exact ⟨.refl y, by simp [drive]⟩
  | cons m ms ih =>
    unfold drive
    cases h : exec config name y m with
    | none => exact ih (fun m hm => hms m (by simp [hm])) y
    | some ez =>
      obtain ⟨hstep, he⟩ := step_of_exec (hms m (by simp)) h
      obtain ⟨hsteps, hes⟩ := ih (fun m hm => hms m (by simp [hm])) ez.2
      exact ⟨.head hstep hsteps, List.forall_mem_cons.2 ⟨he, hes⟩⟩

theorem exists_schedule (h : Steps surroundings y es z)
    (hes : ∀ e ∈ es, e.Fits config name segment) :
    ∃ ms : List Move, (∀ m ∈ ms, m.Fits config name segment) ∧
      drive config name ms y = (es, z) := by
  induction h with
  | refl => exact ⟨[], by simp, rfl⟩
  | head h _ ih =>
    obtain ⟨m, hm, hexec⟩ := exists_exec_of_step h (hes _ (by simp))
    obtain ⟨ms, hms, hdrive⟩ := ih fun e he => hes e (by simp [he])
    exact ⟨m :: ms, List.forall_mem_cons.2 ⟨hm, hms⟩, by simp [drive, hexec, hdrive]⟩

def Move.steps (i n : Nat) : List Move := List.replicate n (.step i .served true)

def Move.plain : Move → Bool
  | .start _ (.index ..) => false
  | _ => true

theorem Move.fits_of_plain (h : ms.all Move.plain = true) :
    ∀ m ∈ ms, m.Fits config name segment := by
  intro m hm
  have hm := List.all_eq_true.1 h m hm
  cases m with
  | start i op =>
    cases op with
    | index => cases hm
    | put | remove | get | getKeys => trivial
  | step | lose => trivial

end Pool

/-- Keys fall into two buckets, by their first byte. -/
def Config.parity (mode : IndexingMode) : Config :=
  { Config.standard with
    hasher := ⟨fun key => (key.headD 0 &&& 1) :: List.replicate 15 0, false⟩
    mode }

def Container.solo : Container := ⟨0, #[.ofAttributes "t" initialAttributes]⟩

theorem Container.create_solo : (empty 0).create "t" initialAttributes = .ok solo := by
  simp [create, resolve, empty, solo]

theorem Container.resolve_solo : solo.resolve "t" = .ok 0 := by decide +kernel

end KeyedLog
