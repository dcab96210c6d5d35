import KeyedLog.Scenario.World

/-! Running scripts, step by step. -/
namespace KeyedLog.Scenario

open Program

/-- A step in which no other step can take part. -/
def plainly (w : World) (outcome : Except TableError Value) : World × Report :=
  (w, .done (outcome.mapError .table) [])

def directly {α : Type} (w : World) (value : α → Value) :
    Except TableError (Container × α) → World × Report
  | .ok (container, a) => plainly { w with container } (.ok (value a))
  | .error e => plainly w (.error e)

def runOn {α : Type} (run : World.Runner) (w : World) (session : Session)
    (program : Program Tables α) (value : α → Value) : World × Report :=
  World.execute run session (value <$> program) [] w

/-- The tables that a step is about. Names that were never opened stand for closed ones. -/
def withTables (w : World) (target : Target) (f : Nat → World × Report) : World × Report :=
  match w.tables[target.tables]? with
  | some n => f n
  | none => plainly w (.error .closed)

def withConnector (w : World) (target : Target) (f : Nat → Connector → World × Report) :
    World × Report :=
  match w.connectors[target.connector]? with
  | some (n, c) => f n c
  | none => plainly w (.error .closed)

/-- The segment that a step is about, without a call that could be interfered with. -/
def segmentOf (w : World) (target : Target) : Except TableError Nat :=
  match target.handle with
  | some handle =>
    match w.handles[handle]? with
    | some id => .ok id
    | none => .error (.segmentNotFound handle)
  | none => w.container.resolve target.segment

def inspect (w : World) (target : Target) (f : Nat → Value) : World × Report :=
  plainly w ((w.container.resolve target.segment).map f)

def sessionOf (target : Target) (suspends : Bool) (tables : Nat) : Session :=
  ⟨tables, target.hasTime, suspends, fun _ => []⟩

def hashesOf (config : Config) (hashes : List HashSource) : Except TableError (List KeyHash) :=
  hashes.mapM fun
    | .key key => config.hasher.hash key
    | .hash h => .ok h

/-- Heads in the order asked for, and how many buckets they belong to. -/
def headsIn (config : Config) (w : World) (target : Target) (sources : List HashSource) :
    Program Tables Value := do
  let hashes ← ofExcept (hashesOf config sources)
  let segment ← ofExcept (segmentOf w target)
  let heads ← Tables.heads config segment hashes
  return .heads hashes.eraseDups.length (hashes.map (heads[·]?))

def segmentInfo {σ : Type} (name : String) : Program σ SegmentInfo := do
  let id : Nat ← ask (.resolve name)
  let length : Nat ← ask (.length id)
  return ⟨id, name, length⟩

/-- The points at which steps run inside an index update. -/
def beforeCommit : Nat := 0

def afterCommit : Nat := 1

def commitIn {σ : Type} (segment : Nat) (data : Bytes) : Commit → Program σ Nat
  | .append => request (.append segment data)
  | .appendLate => ask (.append segment data)
  | .refuse => .fail injected
  | .appendAndFail => do
    let _ ← request (.append segment data)
    .fail injected
  | .claim offset => return offset

/-- Update an index with a batch of records, under hashes that may be made up. -/
def updateIn (config : Config) (w : World) (target : Target) (kind : RecordKind)
    (items : List UpdateItem) (commit : Commit) : Program Tables Nat := do
  let batch ← ofExcept (items.foldlM (fun b i => do
    let hash ← match i.hash with
      | some h => pure h
      | none => config.hasher.hash i.record.key
    return b.add i.record.key hash (i.length.getD i.record.length)) (Batch.empty kind))
  let data := Record.encodeAll recordChecksum (items.map (·.record))
  let segment ← ofExcept (segmentOf w target)
  Tables.update config segment batch do
    .pause beforeCommit (.ret ())
    let offset ← commitIn segment data commit
    .pause afterCommit (.ret ())
    return offset

def connect (run : World.Runner) (suspends : Bool) (w : World) (target : Target) (n : Nat) :
    World × Report :=
  let made : Option Connector → Value
    | some c => .info c.info
    | none => .noTable
  match runOn run w (sessionOf target suspends n) (Connector.ofTable? target.segment) made with
  | (w, .done (.ok (.info i)) nested) =>
    ({ w with connectors := w.connectors.insert target.connector (n, ⟨i, false⟩) },
      .done (.ok (.info i)) nested)
  | r => r

def stateValue (t : Tables) (segment : Nat) : Value :=
  .state ((t.stateOf? segment).map fun s => (s.watermark.offset, s.tailSize))

/-- Take a step in which no other step takes part, unless it interferes. -/
def act (run : World.Runner) (suspends : Bool) (w : World) (target : Target) :
    Action → World × Report
  | .openTables (.error (.digest e)) => plainly w (.error e)
  | .openTables (.error e) => (w, .done (.error (.config e)) [])
  | .openTables (.ok config) =>
    plainly
      { w with
        opened := w.opened.push (config, .initial config)
        tables := w.tables.insert target.tables w.opened.size } (.ok .nothing)
  | .prepare => onTables Tables.prepare fun _ => .nothing
  | .close => changeTables Tables.close
  | .isClosed => withTables w target fun n => plainly w (.ok (.flag (w.tablesAt n).closed))
  | .create => onTables (Tables.create target.segment) fun _ => .nothing
  | .delete mustBeEmpty => onTables (Tables.delete target.segment mustBeEmpty) fun _ => .nothing
  | .unsupported operation => onTables (Tables.unsupported operation) fun _ => .nothing
  | .put entries => withConfig (fun c => Tables.put c target.segment entries) .numbers
  | .remove keys => withConfig (fun c => Tables.remove c target.segment keys) fun _ => .nothing
  | .get keys => withConfig (fun c => Tables.get c target.segment keys) .entries
  | .getKeys keys => withConfig (fun c => Tables.getKeys c target.segment keys) .keys
  | .connect => withTables w target (connect run suspends w target)
  | .connectIndexer => withTables w target (connect run suspends w { target with hasTime := true })
  | .connectorInfo => withConnector w target fun _ c => plainly w (.ok (.info c.info))
  | .connectorSegment => withConnector w target fun n c =>
    runOn run w (sessionOf target suspends n) (segmentInfo c.info.name) .info
  | .connectorHash key => withConnector w target fun n _ =>
    plainly w (((w.configAt n).hasher.hash key).map .hash)
  | .connectorLength record => plainly w (.ok (.number record.length))
  | .connectorNotify offset => withConnector w target fun n c =>
    plainly (w.setTables n (c.notify offset (w.tablesAt n))) (.ok .nothing)
  | .connectorClose => withConnector w target fun n c =>
    let (c, t) := c.close (w.tablesAt n)
    let w := w.setTables n t
    plainly { w with connectors := w.connectors.insert target.connector (n, c) } (.ok .nothing)
  | .index => withConnector w target fun n c =>
    runOn run w (sessionOf target suspends n) (Indexer.run (w.configAt n) c) .number
  | .heads hashes => withConfig (fun c => headsIn c w target hashes) id
  | .backpointer offset => withConfig
    (fun c => do Tables.backpointer c (← ofExcept (segmentOf w target)) offset) .number?
  | .notify id offset =>
    match idOr (segmentOf w target) id with
    | .ok id => changeTables (·.notify id offset)
    | .error e => plainly w (.error e)
  | .closeIndex => changeTables Tables.closeIndex
  | .state id => withTables w target fun n =>
    plainly w ((idOr (w.container.resolve target.segment) id).map (stateValue (w.tablesAt n)))
  | .cache clear => withTables w target fun n =>
    let w := if clear then w.setTables n (w.tablesAt n).clearCache else w
    let cache := (w.tablesAt n).cache
    plainly w (.ok (.cache cache.size cache.isEmpty))
  | .containerId => plainly w (.ok (.number w.container.id))
  | .rawCreate updates =>
    directly w (fun _ => .nothing) ((w.container.create target.segment updates).map (·, ()))
  | .rawDelete => directly w (fun _ => .nothing) ((w.container.delete target.segment).map (·, ()))
  | .hold =>
    match w.container.resolve target.segment with
    | .ok id =>
      plainly { w with handles := w.handles.insert (target.handle.getD "h") id } (.ok .nothing)
    | .error e => plainly w (.error e)
  | .info => plainly w ((segmentOf w target).map fun id => .info (w.container.info id))
  | .append data updates => onSegment .number (w.container.append · data updates)
  | .read offset length => plainly w do
    let s ← w.container.existing (← segmentOf w target)
    return .bytes (← s.read offset length)
  | .getAttributes ids =>
    onSegment (fun values => .attributes (attributesAmong ids values))
      (w.container.getAttributes · ids)
  | .setAttributes updates =>
    onSegment (fun _ => .nothing) fun id => (w.container.updateAttributes id updates).map (·, ())
  | .attributes => inspect w target fun id => .attributes (w.container.segment id).attributes.toList
  | .attributeReads => inspect w target fun id => .number (w.container.segment id).attributeReads
  | .data => inspect w target fun id => .bytes (w.container.segment id).data
  | .clearTriggers => plainly { w with interceptors := [] } (.ok .nothing)
where
  idOr (named : Except TableError Nat) (id : Option Nat) : Except TableError Nat :=
    match id with | some id => .ok id | none => named
  onTables {α : Type} (program : Program Tables α) (value : α → Value) : World × Report :=
    withTables w target fun n => runOn run w (sessionOf target suspends n) program value
  withConfig {α : Type} (program : Config → Program Tables α) (value : α → Value) :
      World × Report :=
    withTables w target fun n =>
      runOn run w (sessionOf target suspends n) (program (w.configAt n)) value
  changeTables (f : Tables → Tables) : World × Report :=
    withTables w target fun n => plainly (w.setTables n (f (w.tablesAt n))) (.ok .nothing)
  onSegment {α : Type} (value : α → Value) (f : Nat → Except TableError (Container × α)) :
      World × Report :=
    directly w value ((segmentOf w target).bind f)
  attributesAmong (ids : List AttributeId) (values : List (Option Nat)) :
      List (AttributeId × Nat) :=
    let found : Attributes := (ids.zip values).foldl (fun m (id, value) =>
      match value with | some v => m.insert id v | none => m) ∅
    found.toList

/-- Take a step. The bound is on how deep steps run inside each other. -/
def step : (bound : Nat) → (suspends : Bool) → World → Step → World × Report
  | 0, _, w, _ => plainly w (.error .timeout)
  | bound + 1, suspends, w, s =>
    match s with
    | .act target action => act (step bound false) suspends w target action
    | .update target kind items commit before after =>
      withTables w target fun n =>
        let session := { sessionOf target suspends n with
          hooks := fun point => if point = beforeCommit then before else after }
        runOn (step bound false) w session
          (updateIn (w.configAt n) w target kind items commit) .number
    | .intercept trigger steps =>
      plainly { w with interceptors := w.interceptors ++ [⟨trigger, steps⟩] } (.ok .nothing)
    | .spawn thread s =>
      let (w, r) := step bound true w s
      plainly { w with threads := w.threads.insert thread r } (.ok .nothing)
    | .join thread =>
      match w.threads[thread]? with
      | some r =>
        let (w, r) := World.resume (step bound false) { w with threads := w.threads.erase thread } r
        (w, .joined r)
      | none => plainly w (.error .timeout)

/-- The report of each step of a script over an empty container. -/
def runScript (containerId : Nat) (steps : List Step) : List Report :=
  (World.runAll (step (weightAll steps) false) steps [] (.empty containerId)).2

end KeyedLog.Scenario
