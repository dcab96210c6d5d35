import KeyedLog.Scenario.Step

/-! What a script acts on: a container, the tables opened over it, and the interference arranged
so far. -/
namespace KeyedLog.Scenario

structure Interceptor where
  trigger : Trigger
  steps : List Step

abbrev Named (α : Type) := Std.ExtTreeMap String α

structure World where
  container : Container
  /-- Every table extension ever opened. -/
  opened : Array (Config × Tables)
  tables : Named Nat
  /-- Connectors, each with the tables that it was made from. -/
  connectors : Named (Nat × Connector)
  handles : Named Nat
  interceptors : List Interceptor
  threads : Named Report

namespace World

def empty (id : Nat) : World := ⟨.empty id, #[], ∅, ∅, ∅, [], ∅⟩

def tablesAt (w : World) (n : Nat) : Tables :=
  (w.opened[n]?.map (·.2)).getD (.initial .standard)

def configAt (w : World) (n : Nat) : Config :=
  (w.opened[n]?.map (·.1)).getD .standard

def setTables (w : World) (n : Nat) (t : Tables) : World :=
  { w with opened := w.opened.modify n fun (config, _) => (config, t) }

/-- Of the interceptors for a call, some count it, and the others meet it. The answer is the ones
that do. -/
def meet (kind : CallKind) : List Interceptor → List Interceptor × List Interceptor
  | [] => ([], [])
  | i :: is =>
    let (rest, met) := meet kind is
    let t := i.trigger
    if t.kind = kind then
      if 0 < t.skip then ({ i with trigger := { t with skip := t.skip - 1 } } :: rest, met)
      else if 0 < t.times then
        ({ i with trigger := { t with times := t.times - 1 } } :: rest, i :: met)
      else (i :: rest, met)
    else (i :: rest, met)

abbrev Runner := World → Step → World × Report

def runAll (run : Runner) : List Step → List Report → World → World × List Report
  | [], reports, w => (w, reports)
  | s :: steps, reports, w =>
    let (w, r) := run w s
    runAll run steps (reports ++ [r]) w

/-- Interceptors act in turn, until one of them makes the call fail. -/
def interfere (run : Runner) :
    List Interceptor → List Report → World → World × List Report × Option TableError
  | [], reports, w => (w, reports, none)
  | i :: is, reports, w =>
    let (w, reports) := runAll run i.steps reports w
    match i.trigger.fault with
    | some e => (w, reports, some e)
    | none => interfere run is reports w

def callDirectly (q : Call) (w : World) : World × Except TableError q.Answer :=
  let (container, r) := w.container.perform q
  ({ w with container }, r)

/-- Make a call, with whatever interferes before it and, if it succeeds, after it. -/
def call (run : Runner) (q : Call) (reports : List Report) (w : World) :
    World × List Report × Except TableError q.Answer :=
  match CallKind.of? q with
  | none =>
    let (w, r) := w.callDirectly q
    (w, reports, r)
  | some kind =>
    let (interceptors, met) := meet kind w.interceptors
    let w := { w with interceptors }
    match interfere run (met.filter (!·.trigger.after)) reports w with
    | (w, reports, some e) => (w, reports, .error e)
    | (w, reports, none) =>
      match w.callDirectly q with
      | (w, .error e) => (w, reports, .error e)
      | (w, .ok a) =>
        match interfere run (met.filter (·.trigger.after)) reports w with
        | (w, reports, some e) => (w, reports, .error e)
        | (w, reports, none) => (w, reports, .ok a)

/-- Run a program of an open table extension, or what is left of it. -/
def execute (run : Runner) (session : Session) :
    Program Tables Value → List Report → World → World × Report
  | .ret a, reports, w => (w, .done (.ok a) reports)
  | .fail e, reports, w => (w, .done (.error (.table e)) reports)
  | .get k, reports, w => execute run session (k (w.tablesAt session.tables)) reports w
  | .set t k, reports, w => execute run session k reports (w.setTables session.tables t)
  | .await bounded ready k, reports, w =>
    let met := ready (w.tablesAt session.tables)
    if session.suspends && !met then (w, .waiting session (.await bounded ready k) reports)
    else execute run session (k met) reports w
  | .clock k, reports, w => execute run session (k session.hasTime) reports w
  | .call q k, reports, w =>
    let (w, reports, r) := w.call run q reports
    execute run session (k r) reports w
  | .pause point k, reports, w =>
    let (w, reports) := runAll run (session.hooks point) reports w
    execute run session k reports w

def resume (run : Runner) (w : World) : Report → World × Report
  | .waiting session program reports =>
    execute run { session with suspends := false } program reports w
  | r => (w, r)

end World
end KeyedLog.Scenario
