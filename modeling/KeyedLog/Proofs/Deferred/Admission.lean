import KeyedLog.Proofs.Alone.Linkers
import KeyedLog.Proofs.Deferred.GatedOperations
import KeyedLog.Proofs.Run.Dropping
import KeyedLog.Proofs.Run.Schedules

/-! Admission to a table that an indexer keeps: nobody reads a bucket or appends before all that was
there is indexed, whoever fails on the way leaves everything as it was, and once the indexer has
come far enough nobody waits any more. -/
namespace KeyedLog

namespace Site

open Program

def kept (config : Config) (name : String) (segment start : Nat) : Site where
  config := config
  name := name
  segment := segment
  place := 0
  start := start
  floor _ := 0
  calm := False
  floor_le _ := Nat.zero_le _
  ready h := h.elim

variable {S : Site} {judged : Nat → Prop} {i : Nat} {w v : World Tables Toll} {c : Container}

/-- Nobody has accessed the segment, and nobody has anything to see to. -/
def unentered : Toll := ⟨0, none, none, fun _ => none⟩

theorem guarded_opened (hn : c.resolve S.name = .ok S.segment)
    (hstart : (c.segment S.segment).data.length = S.start) (hp : S.place = 0) :
    S.Guarded ⟨c, .initial S.config, unentered⟩ where
  resolve := hn
  serves := ⟨rfl, rfl, .inl ⟨by simp [Tables.initial], hp.symm⟩⟩
  orderly :=
    { opened := rfl
      recovering := rfl
      unrecovered := fun _ => hstart
      recovered := fun h => by cases h
      base := fun h => by simp [sight, Tables.initial] at h
      due := fun h => by cases h
      held := fun b => by simp [sight, Tables.initial, Locks.empty, unentered] }

theorem gate_within (S : Site) (judged : Nat → Prop) :
    Pool.surroundings.Within (S.gate judged) where
  fates h := h
  lapses := trivial
  drifts hw hd := by
    obtain ⟨b, rfl⟩ := hd
    exact ⟨hw.cached _, fun i => .refl i _⟩

theorem bound_of_rests (hw : S.Guarded w) (hr : (S.gate judged).rest i w) : S.Bound i [] w where
  guarded := hw
  recoverer := hr.1
  notices := hr.2.1
  owner b := by
    constructor
    · exact fun h => absurd h (hr.2.2 b)
    · exact fun h => by cases h
  known := trivial

def Judges (S : Site) (judged : Nat → Prop) : Pool.Event Tables Reply → Prop
  | .start i p => ∃ op : Operation, op.Fits S.config S.name S.segment i ∧
      (judged i → op.Accesses) ∧ p = op.program S.config S.name
  | _ => True

theorem gate_parked (hm : S.config.mode = .deferred) {p : Program Tables Reply}
    (hp : S.Judges judged (.start i p)) (hrest : (S.gate judged).rest i w) :
    (S.gate judged).Parked i (fun _ _ => True) p w := by
  obtain ⟨op, hop, hj, rfl⟩ := hp
  intro v hv hwv
  have hrest := (gate_lawful S judged).rest hwv hrest
  refine (gate_operation hm hop hj (bound_of_rests hv hrest)).mono (fun _ u hu => ?_)
    fun _ u hu => ?_
  · exact ⟨hu.rests, fun _ _ _ => trivial⟩
  · exact hu.rests

end Site

namespace Pool

/-- An indexer has persisted an index offset, and knows it. -/
def Persisted (segment n : Nat) (es : List (Event Tables Reply)) : Prop :=
  ∃ us, .call 0 (.updateAttributes segment (us ++ [.replaceIfGreater .indexOffset n])) .served ∈ es

/-- The indexer, which has the number 0, has persisted an index offset and gone on from there, which
is to give notice of it. -/
def Notified (segment n : Nat) (es : List (Event Tables Reply)) : Prop :=
  ∃ as bs, es = as ++ bs ∧ Persisted segment n as ∧ .proceed 0 ∈ bs

variable {segment n : Nat} {es : List (Event Tables Reply)} {e : Event Tables Reply}

theorem persisted_append_singleton (h : Persisted segment n (es ++ [e])) :
    Persisted segment n es ∨ ∃ us, e =
      .call 0 (.updateAttributes segment (us ++ [.replaceIfGreater .indexOffset n])) .served := by
  obtain ⟨us, hmem⟩ := h
  rcases List.mem_append.1 hmem with hmem | hmem
  · exact .inl ⟨us, hmem⟩
  · exact .inr ⟨us, (List.mem_singleton.1 hmem).symm⟩

theorem notified_append_singleton (h : Notified segment n (es ++ [e])) :
    Notified segment n es ∨ Persisted segment n es ∧ e = .proceed 0 := by
  obtain ⟨as, bs, hes, hp, hmem⟩ := h
  rcases List.eq_nil_or_concat bs with rfl | ⟨bs, e', rfl⟩
  · cases hmem
  rw [List.concat_eq_append] at hes hmem
  rw [← List.append_assoc] at hes
  obtain ⟨rfl, he⟩ := List.append_inj' hes rfl
  obtain rfl := List.singleton_inj.1 he
  rcases List.mem_append.1 hmem with hmem | hmem
  · exact .inl ⟨as, bs, rfl, hp, hmem⟩
  · refine .inr ⟨?_, (List.mem_singleton.1 hmem).symm⟩
    obtain ⟨us, hp⟩ := hp
    exact ⟨us, List.mem_append_left bs hp⟩

end Pool

namespace Site

variable {S : Site} {judged : Nat → Prop} {w v : World Tables Toll}
  {es : List (Pool.Event Tables Reply)} {e : Pool.Event Tables Reply}

/-- What has happened, and what is known of the notices of the indexer. -/
structure Tells (S : Site) (es : List (Pool.Event Tables Reply)) (w : World Tables Toll) :
    Prop where
  persisted : ∀ {n}, Pool.Persisted S.segment n es → w.ghost.due = some n ∨ (S.sight w).Noticed n
  notified : ∀ {n}, Pool.Notified S.segment n es → (S.sight w).Noticed n

theorem onward_of_accounts (ha : (S.gate judged).Accounts (fun _ (_ : Reply) _ => True) e w v) :
    (S.sight w).Onward (S.sight v) := by
  cases e with
  | start i p =>
    obtain rfl : v = w := ha
    exact .refl _
  | proceed i => exact (ha.2.1 (i + 1) (by omega)).toOnward
  | call i q fate => exact (ha.1 (i + 1) (by omega)).toOnward
  | finish i r =>
    have hvw : v = w := by
      cases r with
      | ok a => exact ha.1
      | error e => exact ha.1
    rw [hvw]
    exact .refl _
  | drift => exact (ha.2 0).toOnward

/-- Whatever is persisted is due to be notified until it is. -/
theorem Tells.step (h : S.Tells es w)
    (ha : (S.gate judged).Accounts (fun _ (_ : Reply) _ => True) e w v) :
    S.Tells (es ++ [e]) v := by
  have hon := onward_of_accounts ha
  have hkeep {n : Nat} (hp : Pool.Persisted S.segment n es) :
      v.ghost.due = some n ∨ (S.sight v).Noticed n := by
    rcases h.persisted hp with hdue | hn
    · exact hon.due hdue
    · exact .inr (hn.go hon)
  constructor
  · intro n hp
    rcases Pool.persisted_append_singleton hp with hp | ⟨us, rfl⟩
    · exact hkeep hp
    · exact .inl ((ha.2 _ _ rfl).2 us n rfl rfl)
  · intro n hn
    rcases Pool.notified_append_singleton hn with hn | ⟨hp, rfl⟩
    · exact (h.notified hn).go hon
    · rcases hkeep hp with hdue | hn
      · have hnone : v.ghost.due = none := ha.2.2 rfl
        rw [hnone] at hdue
        cases hdue
      · exact hn

theorem tells_nil (S : Site) (w : World Tables Toll) : S.Tells [] w where
  persisted h := by
    obtain ⟨us, hmem⟩ := h
    cases hmem
  notified h := by
    obtain ⟨as, bs, hes, ⟨us, hmem⟩, -⟩ := h
    rw [(List.append_eq_nil_iff.1 hes.symm).1] at hmem
    cases hmem

/-- In every run of operations and an indexer the gate is kept, and no notice is lost. -/
theorem gate_of_steps (hm : S.config.mode = .deferred) {y z : Pool Tables Reply} {g : Toll}
    (hy : y.Sound (S.gate judged) (fun _ _ _ => True) g)
    (hrun : Pool.Steps Pool.surroundings y es z) (hok : ∀ e ∈ es, S.Judges judged e) :
    ∃ g', z.Sound (S.gate judged) (fun _ _ _ => True) g' ∧ S.Tells es (z.world g') :=
  hrun.sound (gate_lawful S judged) (gate_within S judged) (H := S.Tells)
    (fun _ _ h ha _ => h.step ha) (fun hp _ hr => gate_parked hm hp hr) hok hy (tells_nil S _)

end Site

/-- All that was there at the first access to a segment is indexed. -/
def Tables.Passable (t : Tables) (segment length : Nat) : Prop :=
  ∃ s, t.stateOf? segment = some s ∧ s.recovered = some length ∧ length ≤ s.watermark.offset

namespace Site

open Program

variable {S : Site} {judged : Nat → Prop} {w v : World Tables Toll} {n : Nat}

theorem Guarded.tracked (hw : S.Guarded w) (ht : (S.sight w).tracked = true) :
    w.state.tracked[S.segment]? = some S.place := by
  rcases hw.serves.tracked with ⟨hn, -⟩ | ⟨hn, -⟩
  · simp [sight, hn] at ht
  · exact hn

theorem Guarded.passable (hw : S.Guarded w) (ho : (S.sight w).Open) :
    w.state.Passable S.segment S.start := by
  obtain ⟨n, hle, hn⟩ := ho
  obtain ⟨ht, rfl, -⟩ := hw.orderly.recovered hn
  exact ⟨w.state.state S.place, by rw [Tables.stateOf?, hw.tracked ht]; rfl, hn, hle⟩

theorem Guarded.reached (hw : S.Guarded w) (hn : (S.sight w).Noticed n) (hle : S.start ≤ n)
    {m : Nat} (hm : (S.sight w).state.recovered = some m) :
    m ≤ (S.sight w).state.watermark.offset := by
  obtain ⟨ht, rfl, hbase⟩ := hw.orderly.recovered hm
  have := hn.known ht
  omega

/-- Once the indexer has given notice, a first access need not wait either. -/
theorem Guarded.atEase (hw : S.Guarded w) (hn : (S.sight w).Noticed n) (hle : S.start ≤ n)
    (hr : w.ghost.recoverer = none) : w.state.AtEase S.segment := by
  have hmemory : w.state.memory S.segment = if (S.sight w).tracked then w.state.state S.place
      else .initial := by
    unfold Tables.memory Tables.stateOf?
    rcases hw.serves.tracked with ⟨ht, -⟩ | ⟨ht, -⟩ <;> simp [sight, ht]
  have hplace (ref : Nat) (h : w.state.tracked[S.segment]? = some ref) :
      ref < w.state.states.size := by
    rcases hw.serves.tracked with ⟨ht, -⟩ | ⟨ht, hsize⟩
    · rw [ht] at h
      cases h
    · obtain rfl := Option.some.inj (ht.symm.trans h)
      omega
  refine ⟨hw.serves.opened, hw.serves.indexOpened, hplace, ?_, ?_, ?_⟩
  · rw [hmemory]
    split
    · exact hw.orderly.recovering.trans (by rw [show (S.sight w).toll = w.ghost from rfl, hr]; rfl)
    · rfl
  · rw [hmemory]
    split
    · exact hw.orderly.opened
    · rfl
  · intro m hm
    rw [hmemory] at hm ⊢
    split at hm
    · next ht =>
      rw [if_pos ht]
      exact hw.reached hn hle hm
    · cases hm

/-- The links of the entries of a log are persisted, and nothing besides. -/
theorem faithful_of_linkMap {log rest : List Record} {a : Attributes}
    (hfloor : ∀ h, S.floor h = 0) (ha : Log.LinkMap S.config.hasher log a) :
    S.Faithful ⟨log ++ rest, fun _ => none⟩ a := by
  have hentry {x : Nat} {h : KeyHash} :
      S.Entry (log ++ rest) x h ↔ Log.Entry S.config.hasher (log ++ rest) x h := by
    simp [Entry, hfloor]
  have hold {x : Nat} {h : KeyHash} (hx : x < Log.size log) :
      S.Entry (log ++ rest) x h ↔ x ∈ Log.bucket S.config.hasher log h := by
    rw [hentry, Attributes.JustLinks.entry_append_iff hx, Log.mem_bucket]
  have hindexed {x : Nat} : a.Indexed x ↔ x < Log.size log := Attributes.indexed_iff ha.index
  have hchain {x : Nat} {h : KeyHash} (he : S.Entry (log ++ rest) x h) (hx : x < Log.size log) :
      LastBefore (S.Entry (log ++ rest) · h) x a[AttributeId.backpointer x]? :=
    (ha.backpointer h x ((hold hx).1 he)).congr fun y hy => (hold (Nat.lt_trans hy hx)).symm
  have hhead {h : KeyHash} {y : Nat} (hh : h.Proper) (hy : a[AttributeId.bucket h]? = some y) :
      S.Entry (log ++ rest) y h ∧ a.Indexed y := by
    obtain ⟨hmem, hlt⟩ := (ha.head h hh).1 y hy
    exact ⟨(hold hlt).2 hmem, hindexed.2 hlt⟩
  exact
    { index := ⟨Log.size log, ha.index, ⟨log, List.prefix_append .., rfl⟩, fun h => by
        rw [hfloor]
        exact Nat.zero_le _⟩
      indexed := fun {x h} he hx => by
        have hlt := hindexed.1 hx
        refine ⟨hchain he hlt, ?_⟩
        exact (ha.head h he.proper).2 x ((hold hlt).1 he) hlt
      backpointer_lt := fun hp => by
        have hlt := ha.lt_of_backpointer hp
        have hsize := Log.size_append log rest
        change _ < Log.size (log ++ rest)
        omega
      backpointer := fun hp he => hp ▸ hchain he (ha.lt_of_backpointer hp)
      bucket := fun hh hy => ⟨(hhead hh hy).1, .inr (hhead hh hy).2⟩
      deferred := fun _ _ _ hh hy => (hhead hh hy).2 }

theorem gate_opened (hn : c.resolve S.name = .ok S.segment)
    (hstart : (c.segment S.segment).data.length = S.start) (hp : S.place = 0) :
    (Pool.opened S.config c).Sound (S.gate judged) (fun _ _ _ => True) unentered where
  inv := guarded_opened hn hstart hp
  parked h := by cases h
  rest _ := ⟨fun h => (by cases h), fun _ => rfl, fun _ h => (by cases h)⟩

end Site

/-- What is said of the entries of a log that are persisted as links, or are not linked yet. -/
structure Container.LinkedUpTo (c : Container) (hasher : Hasher) (segment : Nat)
    (log rest : List Record) : Prop where
  data : (c.segment segment).data = Record.encodeAll recordChecksum (log ++ rest)
  wellformed : Log.Wellformed hasher (log ++ rest)
  links : Log.LinkMap hasher log (c.segment segment).attributes

namespace Pool

open Program

variable {config : Config} {name : String} {segment : Nat} {c : Container}
  {es : List (Event Tables Reply)} {z : Pool Tables Reply}

section Gate

variable {S : Site} {g : Toll}

theorem judges_of_fits {e : Event Tables Reply} (he : e.Fits S.config S.name S.segment) :
    S.Judges (· ≠ 0) e := by
  cases e with
  | start i p =>
    obtain ⟨op, hop, rfl⟩ := he
    refine ⟨op, hop, fun hi => ?_, rfl⟩
    cases op with
    | index => exact hi hop.2.1
    | put | remove | get | getKeys => trivial
  | proceed | call | finish | drift => trivial

/-- Nobody but the indexer makes any but the first calls before the gate is open. -/
theorem prepares_or_passable {i : Nat} {q : Call} {fate : Fate} {z' : Pool Tables Reply}
    (hz : z.Sound (S.gate (· ≠ 0)) (fun _ _ _ => True) g) (hi : i ≠ 0)
    (h : Step surroundings z (.call i q fate) z') :
    q.Prepares ∨ z.state.Passable S.segment S.start := by
  obtain ⟨g', -, -, hheeds⟩ := h.sound (Site.gate_lawful S _) (Site.gate_within S _) hz
    fun j p hj => by cases hj
  exact ((hheeds q fate rfl).1 hi).imp_right hz.inv.passable

/-- While nobody is at work no lock is held, and nobody accounts for old entries. -/
theorem unheld_of_idle (hz : z.Sound (S.gate (· ≠ 0)) (fun _ _ _ => True) g) (hidle : z.Idle) :
    (∀ b, z.state.locks.held.contains b = false) ∧ g.recoverer = none := by
  have hrest (i : Nat) := hz.rest (hidle i)
  constructor
  · intro b
    refine (hz.inv.orderly.held b).trans ?_
    cases ho : g.owner b with
    | none => simp [Site.sight, world, ho]
    | some i => exact absurd ho ((hrest i).2.2 b)
  · cases hr : g.recoverer with
    | none => rfl
    | some i => exact absurd hr (hrest i).1

theorem unrecovering_of_idle (hz : z.Sound (S.gate (· ≠ 0)) (fun _ _ _ => True) g)
    (hidle : z.Idle) {s : SegmentState} (hs : z.state.stateOf? S.segment = some s) :
    s.recovering = false := by
  obtain ⟨ref, href, rfl⟩ := Option.map_eq_some_iff.1 hs
  have ht : (S.sight (z.world g)).tracked = true := by simp [Site.sight, world, href]
  obtain rfl := Option.some.inj ((hz.inv.tracked ht).symm.trans href)
  refine hz.inv.orderly.recovering.trans ?_
  rw [show (S.sight (z.world g)).toll = g from rfl, (unheld_of_idle hz hidle).2]
  rfl

/-- Whoever waits for what was noticed goes on at once. -/
theorem awaits_nothing {n ref m : Nat} (hasTime : Bool)
    (hz : z.Sound (S.gate (· ≠ 0)) (fun _ _ _ => True) g) (hn : (S.sight (z.world g)).Noticed n)
    (hle : S.start ≤ n) (href : z.state.tracked[S.segment]? = some ref)
    (hm : (z.state.state ref).recovered = some m) :
    (Tables.awaitWatermark ref m).run hasTime z.container z.state =
      (.ok (), z.container, z.state) := by
  have ht : (S.sight (z.world g)).tracked = true := by simp [Site.sight, world, href]
  obtain rfl := Option.some.inj ((hz.inv.tracked ht).symm.trans href)
  have hreached : m ≤ (z.state.state S.place).watermark.offset := hz.inv.reached hn hle hm
  have hopen : (z.state.state S.place).watermark.closed = false := hz.inv.orderly.opened
  have hsettled : (z.state.state S.place).watermark.settled m = true := by
    simp [Watermark.settled, hreached]
  unfold Tables.awaitWatermark waitUntil
  change ((if (z.state.state S.place).watermark.settled m then (.ret () : Program Tables Unit)
    else .fail .timeout) >>= _).run hasTime _ _ = _
  rw [hsettled, if_pos rfl]
  change (if (z.state.state S.place).watermark.closed = true then
    (.fail .closed : Program Tables Unit) else .ret ()).run hasTime _ _ = _
  rw [hopen]
  rfl

/-- A first access succeeds as well, if nobody is at work. -/
theorem accesses {n : Nat} (hz : z.Sound (S.gate (· ≠ 0)) (fun _ _ _ => True) g)
    (hidle : z.Idle) (hn : (S.sight (z.world g)).Noticed n) (hle : S.start ≤ n) :
    ∃ ref d t, (Tables.access S.config S.segment).run true z.container z.state =
      (.ok ref, d, t) := by
  have hease := hz.inv.atEase hn hle (unheld_of_idle hz hidle).2
  have hindex : n ≤ (z.container.segment S.segment).attributes[AttributeId.indexOffset]?.getD 0 :=
    hn.persisted
  have hunrecovered : (z.state.memory S.segment).recovered = none →
      (z.container.segment S.segment).data.length ≤
        (z.container.segment S.segment).attributes[AttributeId.indexOffset]?.getD 0 := by
    intro hnone
    have hstate : (z.state.state S.place).recovered = none := by
      unfold Tables.memory Tables.stateOf? at hnone
      rcases hz.inv.serves.tracked with ⟨ht, hsize⟩ | ⟨ht, -⟩
      · have : (z.state.state S.place) = .initial := by
          simp [Tables.state, show z.state.states.size = S.place from hsize]
        rw [this]
        rfl
      · have ht : z.state.tracked[S.segment]? = some S.place := ht
        rw [ht] at hnone
        exact hnone
    have hlength : (z.container.segment S.segment).data.length = S.start :=
      hz.inv.orderly.unrecovered hstate
    omega
  obtain ⟨ref, d, t, hrun, -⟩ := Tables.succeeds_access (K := fun _ _ _ => True)
    ⟨hz.inv.resolve, rfl, rfl⟩ rfl hease rfl hunrecovered fun _ _ _ _ _ _ => trivial
  exact ⟨ref, d, t, hrun⟩

end Gate

section Reads

theorem inv_of_linkedUpTo {log rest : List Record} (hn : c.resolve name = .ok segment)
    (hm : config.mode = .deferred) (hc : c.LinkedUpTo config.hasher segment log rest) :
    (Site.kept config name segment (Log.size (log ++ rest))).Inv
      ⟨c, .initial config, Site.idle (log ++ rest)⟩ := by
  refine Site.inv_opened ⟨hn, hc.data⟩ hc.wellformed rfl rfl ?_ fun hi => ?_
  · exact Site.faithful_of_linkMap (fun _ => rfl) hc.links
  · exact absurd (hm.symm.trans hi) (by simp)

/-- A run from where the links of some entries are persisted. -/
theorem reads_of_linkedUpTo {log rest : List Record} (hn : c.resolve name = .ok segment)
    (hm : config.mode = .deferred) (hc : c.LinkedUpTo config.hasher segment log rest)
    (hrun : Steps surroundings (.opened config c) es z)
    (hf : ∀ e ∈ es, e.Fits config name segment) :
    ∃ (S : Site) (g : Account), S.config = config ∧ S.name = name ∧ S.segment = segment ∧
      ¬S.calm ∧ z.Sound S.rules (fun _ _ _ => True) g ∧ (∀ h, S.floor h = 0) ∧
      ∀ x < (c.segment segment).data.length, g.Settled x := by
  have hlength : (c.segment segment).data.length = Log.size (log ++ rest) := by
    rw [hc.data, Log.length_encodeAll]
  generalize hS : Site.kept config name segment (Log.size (log ++ rest)) = S
  have hinv : S.Inv ⟨c, .initial config, Site.idle (log ++ rest)⟩ :=
    hS ▸ inv_of_linkedUpTo hn hm hc
  have hcalm : ¬S.calm := by
    subst hS
    exact id
  obtain ⟨hconfig, hname, hsegment, hfloor⟩ :
      S.config = config ∧ S.name = name ∧ S.segment = segment ∧ ∀ h, S.floor h = 0 := by
    subst hS
    exact ⟨rfl, rfl, rfl, fun _ => rfl⟩
  subst hconfig hname hsegment
  obtain ⟨g, hz, -, hgrow⟩ := Site.sound_of_fits hcalm hrun hf (Site.sound_opened hinv)
  refine ⟨S, g, rfl, rfl, rfl, hcalm, hz, hfloor, fun x hx => hgrow.settled ⟨hlength ▸ hx, ?_⟩⟩
  rintro ⟨i, s, e, hi, -⟩
  cases hi

theorem upToDate_of_get {log rest : List Record} {i : Nat} {keys : List Bytes}
    {os : List (Option TableEntry)} {fs : List (Event Tables Reply)} {z' : Pool Tables Reply}
    (hn : c.resolve name = .ok segment) (hm : config.mode = .deferred)
    (hc : c.LinkedUpTo config.hasher segment log rest)
    (hrun : Steps surroundings (.opened config c) es z)
    (hf : ∀ e ∈ es, e.Fits config name segment)
    (hget : Steps surroundings z (.start i ((Operation.get keys).program config name) :: fs ++
      [.finish i (.ok (.entries os))]) z')
    (hf' : ∀ e ∈ fs, e.Fits config name segment) (hno : ∀ r, .finish i r ∉ fs) :
    List.Forall₂ (UpToDate (z'.container.entries segment)
      (· < (c.segment segment).data.length)) keys os := by
  obtain ⟨S, g, rfl, rfl, rfl, hcalm, hz, hfloor, hold⟩ := reads_of_linkedUpTo hn hm hc hrun hf
  obtain ⟨g', hz', hreads, -, hgrow⟩ := reads_of_get hcalm hz hget hf' hno
  rw [show z'.container.entries S.segment = Log.placed 0 g'.log from Site.Inv.entries hz'.inv]
  exact hreads.imp fun key o ho => ho.upToDate hgrow.log fun _ _ hy =>
    ⟨by rw [hfloor]; exact Nat.zero_le _, hold _ hy⟩

/-- A key is seen as its entry would be. -/
theorem upToDate_of_getKeys {log rest : List Record} {i : Nat} {keys : List Bytes}
    {ks : List (Option TableKey)} {fs : List (Event Tables Reply)} {z' : Pool Tables Reply}
    (hn : c.resolve name = .ok segment) (hm : config.mode = .deferred)
    (hc : c.LinkedUpTo config.hasher segment log rest)
    (hrun : Steps surroundings (.opened config c) es z)
    (hf : ∀ e ∈ es, e.Fits config name segment)
    (hget : Steps surroundings z (.start i ((Operation.getKeys keys).program config name) :: fs ++
      [.finish i (.ok (.keys ks))]) z')
    (hf' : ∀ e ∈ fs, e.Fits config name segment) (hno : ∀ r, .finish i r ∉ fs) :
    ∃ os, ks = os.map (·.map (·.key)) ∧ List.Forall₂ (UpToDate (z'.container.entries segment)
      (· < (c.segment segment).data.length)) keys os := by
  obtain ⟨S, g, rfl, rfl, rfl, hcalm, hz, hfloor, hold⟩ := reads_of_linkedUpTo hn hm hc hrun hf
  obtain ⟨g', hz', hreads, -, hgrow⟩ := reads_of_getKeys hcalm hz hget hf' hno
  rw [show z'.container.entries S.segment = Log.placed 0 g'.log from Site.Inv.entries hz'.inv]
  have hone {key : Bytes} {o : Option TableKey}
      (ho : S.Reads (S.scene (z.world g)) g'.log Record.keyAt key o) :
      ∃ e, o = e.map (·.key) ∧ UpToDate (Log.placed 0 g'.log)
        (· < (c.segment S.segment).data.length) key e := by
    obtain ⟨e, he, heo⟩ := ho.entry
    exact ⟨e, heo, he.upToDate hgrow.log fun _ _ hy =>
      ⟨by rw [hfloor]; exact Nat.zero_le _, hold _ hy⟩⟩
  clear hget
  induction hreads with
  | nil => exact ⟨[], rfl, .nil⟩
  | cons ho _ ih =>
    obtain ⟨os, rfl, hos⟩ := ih
    obtain ⟨e, rfl, he⟩ := hone ho
    exact ⟨e :: os, rfl, .cons he hos⟩

end Reads

/-- At a table that an indexer keeps, the thread with number 0. Nobody but the indexer looks at more
than the index offset and the length before all that was there at the first access is indexed, let
alone appends. Whoever fails has altered nothing, and leaves nothing behind that others wait for.
Once the indexer has given notice of enough, whenever that was, nobody waits. And lookups that
succeed see all that was there when the extension was opened. -/
theorem admission_gated (hm : config.mode = .deferred) (hn : c.resolve name = .ok segment)
    (hrun : Steps surroundings (.opened config c) es z)
    (hf : ∀ e ∈ es, e.Fits config name segment) :
    let length := (c.segment segment).data.length
    (∀ i q fate z', i ≠ 0 → Step surroundings z (.call i q fate) z' →
      q.Prepares ∨ z.state.Passable segment length) ∧
    (∀ (op : Operation) i gs u q fate v hs z' error, op.Accesses → z.threads i = none →
      Steps surroundings z (.start i (op.program config name) :: gs) u →
      Step surroundings u (.call i q fate) v → Steps surroundings v hs z' →
      (∀ r, .finish i r ∉ gs ++ hs) → z'.threads i = some (.fail error) →
      u.container.Spared v.container) ∧
    (z.Idle → (∀ b, z.state.locks.held.contains b = false) ∧
      ∀ s, z.state.stateOf? segment = some s → s.recovering = false) ∧
    (∀ e, Notified segment e es → length ≤ e →
      (∀ ref m hasTime, z.state.tracked[segment]? = some ref →
        (z.state.state ref).recovered = some m →
        (Tables.awaitWatermark ref m).run hasTime z.container z.state =
          (.ok (), z.container, z.state)) ∧
      (z.Idle → ∃ ref d t,
        (Tables.access config segment).run true z.container z.state = (.ok ref, d, t))) ∧
    ∀ log rest, c.LinkedUpTo config.hasher segment log rest →
      ∀ i keys fs z', (∀ e ∈ fs, e.Fits config name segment) → (∀ r, .finish i r ∉ fs) →
      (∀ os, Steps surroundings z (.start i ((Operation.get keys).program config name) :: fs ++
          [.finish i (.ok (.entries os))]) z' →
        List.Forall₂ (UpToDate (z'.container.entries segment) (· < length)) keys os) ∧
      ∀ ks, Steps surroundings z (.start i ((Operation.getKeys keys).program config name) :: fs ++
          [.finish i (.ok (.keys ks))]) z' →
        ∃ os, ks = os.map (·.map (·.key)) ∧
          List.Forall₂ (UpToDate (z'.container.entries segment) (· < length)) keys os := by
  intro length
  generalize hS : Site.kept config name segment length = S
  have hopened : (Pool.opened config c).Sound (S.gate (· ≠ 0)) (fun _ _ _ => True)
      Site.unentered := by
    subst hS
    exact Site.gate_opened hn rfl rfl
  have hsite : S.config = config ∧ S.name = name ∧ S.segment = segment ∧ S.start = length := by
    subst hS
    exact ⟨rfl, rfl, rfl, rfl⟩
  obtain ⟨rfl, rfl, rfl, hstart⟩ := hsite
  obtain ⟨g, hz, htells⟩ :=
    Site.gate_of_steps hm hopened hrun fun e he => judges_of_fits (hf e he)
  refine ⟨?_, ?_, ?_, ?_, ?_⟩
  · exact fun i q fate z' hi h => hstart ▸ prepares_or_passable hz hi h
  · intro op i gs u q fate v hs z' error hop hi hbefore hcall hafter hno herror
    cases hbefore with
    | head hstart hgs =>
      cases hstart with
      | start p hfree =>
        refine Step.spared (if_pos rfl) (hop.spares hm S.name) hgs (fun r hr => ?_) hcall hafter
          (fun r hr => ?_) herror
        · exact hno r (List.mem_append_left hs hr)
        · exact hno r (List.mem_append_right gs hr)
  · exact fun hidle => ⟨(unheld_of_idle hz hidle).1, fun s hs => unrecovering_of_idle hz hidle hs⟩
  · intro e he hle
    have hnoticed := htells.notified he
    have hle : S.start ≤ e := hstart ▸ hle
    exact ⟨fun ref m hasTime href hm => awaits_nothing hasTime hz hnoticed hle href hm,
      fun hidle => accesses hz hidle hnoticed hle⟩
  · intro log rest hc i keys fs z' hf' hno
    exact ⟨fun os hget => upToDate_of_get hn hm hc hrun hf hget hf' hno,
      fun ks hget => upToDate_of_getKeys hn hm hc hrun hf hget hf' hno⟩

def behind : Container :=
  ⟨0, #[{ Segment.ofAttributes "t" initialAttributes with
    data := Record.encodeAll recordChecksum [.update [97] [1]] }]⟩

/-- Somebody waits while the indexer is at work, and somebody else comes when it is done. -/
theorem admission_gated_amid_wait :
    ∃ es z fs z', Steps surroundings (.opened (.parity .deferred) behind) es z ∧
      Notified 0 20 es ∧ (z.threads 1).isSome ∧ z.state.tracked[0]? = some 0 ∧
      (Tables.awaitWatermark 0 20).run false z.container z.state = (.ok (), z.container, z.state) ∧
      Steps surroundings z
        (.start 2 ((Operation.get [[97]]).program (.parity .deferred) "t") :: fs ++
          [.finish 2 (.ok (.entries [some ⟨⟨[97], some 0⟩, [1]⟩]))]) z' ∧
      List.Forall₂ (UpToDate (z'.container.entries 0) (· < (behind.segment 0).data.length)) [[97]]
        [some ⟨⟨[97], some 0⟩, [1]⟩] := by
  let index : Move := .start 0 (.index ⟨⟨0, "t", 0⟩, false⟩ none)
  let before : List Move :=
    .start 1 (.get [[97]]) :: Move.steps 1 20 ++ index :: Move.steps 0 6
  let x := drive (.parity .deferred) "t" before (.opened (.parity .deferred) behind)
  let y := drive (.parity .deferred) "t" (Move.steps 0 1) x.2
  let y' := y.2.assign 2 (some ((Operation.get [[97]]).program (.parity .deferred) "t"))
  let z := drive (.parity .deferred) "t" (Move.steps 2 12) y'
  have hplain {ms : List Move} (h : ms.all Move.plain = true) :
      ∀ m ∈ ms, m.Fits (.parity .deferred) "t" 0 := Move.fits_of_plain h
  have hindex : index.Fits (.parity .deferred) "t" 0 := ⟨rfl, rfl, rfl, rfl⟩
  obtain ⟨hxs, hxf⟩ := @steps_drive (.parity .deferred) "t" 0 before
    (List.forall_mem_append.2 ⟨hplain (by decide +kernel),
      List.forall_mem_cons.2 ⟨hindex, hplain (by decide +kernel)⟩⟩) (.opened _ behind)
  obtain ⟨hys, hyf⟩ := @steps_drive (.parity .deferred) "t" 0 (Move.steps 0 1)
    (hplain (by decide +kernel)) x.2
  obtain ⟨hzs, hzf⟩ := @steps_drive (.parity .deferred) "t" 0 (Move.steps 2 12)
    (hplain (by decide +kernel)) y'
  have hidle : y.2.threads 2 = none := Option.isNone_iff_eq_none.1 (by decide +kernel)
  have hended : (z.2.threads 2).bind ended =
      some (.ok (.entries [some ⟨⟨[97], some 0⟩, [1]⟩])) := by decide +kernel
  have hno : ∀ r, .finish 2 r ∉ z.1 := not_finish_of_all (by decide +kernel) 2
  have hget := Steps.head (.start _ hidle)
    (hzs.append (.head (step_of_ended hended) (.refl _)))
  let links : List AttributeUpdate := [.replaceIfGreater (.bucket ⟨0x100000000000000, 0⟩) 0]
  have hpersisted : Persisted 0 20 x.1 := ⟨links, mem_of_serves (by decide +kernel)⟩
  have hnotified : Notified 0 20 (x.1 ++ y.1) :=
    ⟨x.1, y.1, rfl, hpersisted, mem_of_proceeds (by decide +kernel)⟩
  have hlinked : behind.LinkedUpTo (Config.parity .deferred).hasher 0 [] [.update [97] [1]] := by
    refine ⟨rfl, fun r hr => ?_, Attributes.justLinks_initial _⟩
    obtain rfl := List.mem_singleton.1 hr
    exact ⟨(Record.valid_iff _).2 (by decide), _, rfl⟩
  obtain ⟨-, -, -, hwait, hreads⟩ := admission_gated rfl (by decide +kernel) (hxs.append hys)
    (List.forall_mem_append.2 ⟨hxf, hyf⟩)
  have hready := (hwait 20 hnotified (by decide +kernel)).1 0 20 false (by decide +kernel)
    (by decide +kernel)
  exact ⟨_, y.2, z.1, _, hxs.append hys, hnotified, by decide +kernel, by decide +kernel, hready,
    hget, (hreads [] _ hlinked 2 [[97]] z.1 _ hzf hno).1 _ hget⟩

end Pool
end KeyedLog
