import KeyedLog.Proofs.Alone.Operations
import KeyedLog.Proofs.Run.Freshness

/-! A table behaves as a map does whose entries carry versions. -/
namespace KeyedLog

/-- A map from keys to their values and versions, how long the log of its history is, and how many
records each bucket has seen. -/
structure Reference where
  length : Nat
  entry : Bytes → Option TableEntry
  count : KeyHash → Nat

namespace Reference

variable {config : Config} {hasher : Hasher} {m : Reference} {log : List Record} {key : Bytes}

def empty : Reference := ⟨0, fun _ => none, fun _ => 0⟩

def write (hasher : Hasher) (m : Reference) (r : Record) : Reference where
  length := m.length + r.length
  entry key := if key = r.key then r.entryAt m.length else m.entry key
  count h := if (hasher.hash r.key).toOption = some h then m.count h + 1 else m.count h

def writeAll (config : Config) (kind : RecordKind) (m : Reference) (rs : List Record) :
    Except TableError (List Nat) × Reference :=
  match Batch.ofRecords config.hasher config.maxBatchLength kind rs with
  | .error e => (.error e, m)
  | .ok _ => (.ok ((Log.placed m.length rs).map (·.1)), rs.foldl (write config.hasher) m)

def lookup {β : Type} (config : Config) (view : Option TableEntry → β) (m : Reference)
    (keys : List Bytes) : Except TableError (List β) :=
  (keys.mapM config.hasher.hash).map fun _ => keys.map fun key => view (m.entry key)

/-- What an operation answers, and what it makes of the map. -/
def step (config : Config) (m : Reference) : Operation → Except TableError Reply × Reference
  | .put entries =>
    let (r, m) := m.writeAll config .value (Operation.put entries).records
    (r.map .versions, m)
  | .remove keys =>
    let (r, m) := m.writeAll config .tombstone (Operation.remove keys).records
    (r.map fun _ => .removed, m)
  | .get keys => ((m.lookup config id keys).map .entries, m)
  | .getKeys keys => ((m.lookup config (·.map (·.key)) keys).map .keys, m)
  | .index _ _ => (.ok .indexed, m)

def replies (config : Config) : Reference → List Operation → List (Except TableError Reply)
  | _, [] => []
  | m, op :: ops => (m.step config op).1 :: replies config (m.step config op).2 ops

def after (config : Config) (m : Reference) (ops : List Operation) : Reference :=
  ops.foldl (fun m op => (m.step config op).2) m

def ofLog (hasher : Hasher) (log : List Record) : Reference := log.foldl (write hasher) empty

theorem ofLog_append (hasher : Hasher) (log rs : List Record) :
    ofLog hasher (log ++ rs) = rs.foldl (write hasher) (ofLog hasher log) :=
  List.foldl_append

theorem length_ofLog (hasher : Hasher) (log : List Record) :
    (ofLog hasher log).length = Log.size log := by
  induction log using List.reverseRecOn with
  | nil => rfl
  | append_singleton log r ih =>
    rw [ofLog_append, List.foldl_cons, List.foldl_nil, Log.size_append, ← ih]
    simp [write]

theorem count_ofLog (hasher : Hasher) (log : List Record) (h : KeyHash) :
    (ofLog hasher log).count h = (Log.bucket hasher log h).length := by
  induction log using List.reverseRecOn with
  | nil => rfl
  | append_singleton log r ih =>
    rw [ofLog_append, List.foldl_cons, List.foldl_nil, Log.bucket_eq_filter, Log.placed_append,
      List.filter_append, List.map_append, List.length_append, ← Log.bucket_eq_filter, ← ih]
    by_cases hk : (hasher.hash r.key).toOption = some h <;> simp [write, hk]

/-- The map holds what the newest record of a key says, if there is one. -/
theorem entry_ofLog {q : Option (Nat × Record)}
    (hmem : ∀ e ∈ q, e ∈ Log.placed 0 log ∧ e.2.key = key)
    (hnewest : ∀ e ∈ Log.placed 0 log, e.2.key = key → ∃ f ∈ q, e.1 ≤ f.1) :
    (ofLog hasher log).entry key = q.bind fun e => e.2.entryAt e.1 := by
  induction log using List.reverseRecOn with
  | nil =>
    cases q with
    | none => rfl
    | some e =>
      have := (hmem e rfl).1
      cases this
  | append_singleton log r ih =>
    have hplaced (e : Nat × Record) :
        e ∈ Log.placed 0 (log ++ [r]) ↔ e ∈ Log.placed 0 log ∨ e = (Log.size log, r) := by
      simp [Log.placed_append]
    rw [ofLog_append, List.foldl_cons, List.foldl_nil]
    simp only [write, length_ofLog]
    by_cases hk : key = r.key
    · rw [if_pos hk]
      obtain ⟨f, hf, hle⟩ := hnewest _ ((hplaced _).2 (.inr rfl)) hk.symm
      obtain rfl : q = some f := hf
      rcases (hplaced f).1 (hmem f rfl).1 with hf | rfl
      · have := Log.placed_lt (r := f.2) hf
        omega
      · rfl
    · rw [if_neg hk]
      refine ih (fun e he => ⟨?_, (hmem e he).2⟩) fun e he => hnewest e ((hplaced e).2 (.inl he))
      rcases (hplaced e).1 (hmem e he).1 with hmem' | rfl
      · exact hmem'
      · exact absurd (hmem _ he).2.symm hk

theorem count_write_le (m : Reference) (rs : List Record) (h : KeyHash) :
    m.count h ≤ (rs.foldl (write hasher) m).count h := by
  induction rs generalizing m with
  | nil => exact Nat.le_refl _
  | cons r rs ih =>
    refine Nat.le_trans ?_ (ih (write hasher m r))
    dsimp only [write]
    split
    · exact Nat.le_succ _
    · exact Nat.le_refl _

theorem count_writeAll_le (m : Reference) (kind : RecordKind) (rs : List Record) (h : KeyHash) :
    m.count h ≤ (m.writeAll config kind rs).2.count h := by
  unfold writeAll
  split
  · exact Nat.le_refl _
  · exact count_write_le m rs h

theorem count_step_le (m : Reference) (op : Operation) (h : KeyHash) :
    m.count h ≤ (m.step config op).2.count h := by
  cases op with
  | put | remove => exact count_writeAll_le ..
  | get | getKeys | index => exact Nat.le_refl _

theorem count_after_le (m : Reference) (ops : List Operation) (h : KeyHash) :
    m.count h ≤ (m.after config ops).count h := by
  induction ops generalizing m with
  | nil => exact Nat.le_refl _
  | cons op ops ih => exact Nat.le_trans (count_step_le m op h) (ih (m.step config op).2)

theorem count_write_le_length (m : Reference) (rs : List Record) (h : KeyHash) :
    (rs.foldl (write hasher) m).count h ≤ m.count h + rs.length := by
  induction rs generalizing m with
  | nil => exact Nat.le_refl _
  | cons r rs ih =>
    have hle : (write hasher m r).count h ≤ m.count h + 1 := by
      dsimp only [write]
      split <;> omega
    have := ih (write hasher m r)
    simp only [List.foldl_cons, List.length_cons]
    omega

/-- A bucket sees no more than all that is to be written. -/
theorem count_after_le_length (m : Reference) (ops : List Operation) (h : KeyHash) :
    (m.after config ops).count h ≤ m.count h + (ops.flatMap Operation.records).length := by
  induction ops generalizing m with
  | nil => exact Nat.le_refl _
  | cons op ops ih =>
    have hle : (m.step config op).2.count h ≤ m.count h + op.records.length := by
      cases op with
      | put | remove =>
        dsimp only [step, writeAll]
        split
        · exact Nat.le_add_right _ _
        · exact count_write_le_length ..
      | get | getKeys | index => exact Nat.le_refl _
    have hrest := ih (m.step config op).2
    rw [List.flatMap_cons, List.length_append]
    rw [after] at hrest
    rw [after, List.foldl_cons]
    omega

end Reference

namespace Site

open Program

variable {S : Site} {z : Scene} {w v : World Tables Account} {m : Reference} {log : List Record}
  {key : Bytes} {keys : List Bytes} {β : Type} {view : Nat → Record → Option β}
  {f : Option TableEntry → Option β}

/-- The log of a table is the history of a map. Nobody is at work on it. -/
structure Stands (S : Site) (w : World Tables Account) (m : Reference) : Prop where
  inv : S.Inv w
  rests : ∀ i, w.ghost.Rests i
  map : m = .ofLog S.config.hasher w.ghost.log

theorem stands_of_calm (hc : S.calm) (hv : S.Inv v) (hr : v.ghost.Rests 0)
    (hm : m = .ofLog S.config.hasher v.ghost.log) : S.Stands v m where
  inv := hv
  rests := rests_of_calm hc hv hr
  map := hm

theorem Stands.reads (h : S.Stands w m) (hfloor : ∀ h, S.floor h = 0)
    (hview : ∀ x r, view x r = f (r.entryAt x)) (hnone : f none = none) {e : Option β}
    (hr : S.Reads (S.scene w) w.ghost.log view key e) : f (m.entry key) = e := by
  obtain ⟨k, hk, hr⟩ := hr
  have habout {e : Nat × Record} (he : e ∈ Log.placed 0 w.ghost.log) (hkey : e.2.key = key) :
      w.ghost.Settled e.1 ∧ S.About w.ghost.log key k e.1 :=
    ⟨settled_of_rests h.rests (Log.placed_lt (r := e.2) he),
      ⟨⟨e.2, he, hkey ▸ hk⟩, hfloor k ▸ Nat.zero_le _⟩, e.2, he, hkey⟩
  rw [h.map]
  rcases hr with ⟨x, r, hmem, hkey, -, rfl, hnewest⟩ | ⟨rfl, hno⟩
  · rw [Reference.entry_ofLog (q := some (x, r)) (fun e he => Option.some.inj he ▸ ⟨hmem, hkey⟩)
      fun e he hkey => ⟨_, rfl, hnewest e.1 (habout he hkey).1 (habout he hkey).2⟩]
    exact (hview x r).symm
  · rw [Reference.entry_ofLog (q := none) (fun e he => by cases he)
      fun e he hkey => absurd (habout he hkey).2 (hno e.1 (habout he hkey).1)]
    exact hnone

theorem Stands.lookup (h : S.Stands w m) (hfloor : ∀ h, S.floor h = 0)
    (hview : ∀ x r, view x r = f (r.entryAt x)) (hnone : f none = none) {es : List (Option β)}
    (hr : List.Forall₂ (S.Reads (S.scene w) w.ghost.log view) keys es) :
    m.lookup S.config f keys = .ok es := by
  obtain ⟨hashes, hhashes⟩ : ∃ hashes, keys.mapM S.config.hasher.hash = .ok hashes := by
    refine mapM_eq_ok fun key hkey => ?_
    obtain ⟨e, -, k, hk, -⟩ := exists_of_forall₂ hr.flip hkey
    exact ⟨k, hk⟩
  have hmap : keys.map (fun key => f (m.entry key)) = es := by
    rw [← List.forall₂_eq_eq_eq, List.forall₂_map_left_iff]
    exact hr.imp fun key e he => h.reads hfloor hview hnone he
  unfold Reference.lookup
  rw [hhashes, ← hmap]
  rfl

theorem LookupFails.lookup {e : TableError} (he : S.LookupFails keys e log) (hb : S.Bounded log)
    (m : Reference) (f : Option TableEntry → Option β) : m.lookup S.config f keys = .error e := by
  unfold Reference.lookup
  rw [he.resolve_left (not_not_intro hb)]
  rfl

theorem Stands.bounded (h : S.Stands w m)
    (hb : ∀ h, m.count h ≤ S.config.maxChainLength) : S.Bounded w.ghost.log := fun k => by
  rw [← Reference.count_ofLog, ← h.map]
  exact hb k

theorem Stands.keep (hc : S.calm) (h : S.Stands w m) (hv : Reading 0 S w S v) :
    v.ghost.log = w.ghost.log ∧ S.Stands v m := by
  have hlog : v.ghost.log = w.ghost.log := hv.carries.alone hc rfl
  exact ⟨hlog, stands_of_calm hc hv.inv hv.rests (hlog ▸ h.map)⟩

/-- A batch is written to the map as well. -/
theorem obeys_writeAll (hc : S.calm) (h : S.Stands w m) (hb : S.Bounded w.ghost.log)
    (kind : RecordKind) (rs : List Record) :
    (Tables.write S.config S.name kind rs).Obeys S.rules 0
      (fun vs v => (m.writeAll S.config kind rs).1 = .ok vs ∧
        S.Stands v (m.writeAll S.config kind rs).2)
      (fun e v => (m.writeAll S.config kind rs).1 = .error e ∧
        S.Stands v (m.writeAll S.config kind rs).2) w := by
  unfold Reference.writeAll
  refine (abides_write h.inv (h.rests 0) (fun _ => rfl) kind).obeys.mono ?_ ?_
  · rintro vs v ⟨hv, hr, ⟨n, hwrote, rfl⟩, b, hof⟩
    obtain ⟨a, ha, rfl, hlog⟩ := hwrote.log
    have ha := ha.2 hc
    have hlog := hlog.2 hc
    subst ha
    rw [hof]
    refine ⟨by rw [h.map, Reference.length_ofLog], stands_of_calm hc hv hr ?_⟩
    rw [hlog, Reference.ofLog_append, ← h.map]
  · rintro e v ⟨hv, hr, herror⟩
    obtain ⟨hlog, he⟩ := herror hc
    rw [he.resolve_left (not_not_intro (hlog ▸ hb))]
    exact ⟨rfl, stands_of_calm hc hv hr (hlog ▸ h.map)⟩

/-- Every operation answers what the map answers, and does to the table what it does to the map. -/
theorem obeys_step (hc : S.calm) (hfloor : ∀ h, S.floor h = 0) (h : S.Stands w m)
    (hb : ∀ h, m.count h ≤ S.config.maxChainLength) {op : Operation}
    (hop : op.Fits S.config S.name S.segment 0) :
    (op.program S.config S.name).Obeys S.rules 0
      (fun r v => (m.step S.config op).1 = .ok r ∧ S.Stands v (m.step S.config op).2)
      (fun e v => (m.step S.config op).1 = .error e ∧ S.Stands v (m.step S.config op).2) w := by
  have hb := h.bounded hb
  unfold Operation.program
  cases op with
  | put entries =>
    refine (obeys_map _ _ _).2 ((obeys_writeAll hc h hb .value _).mono ?_ ?_)
    · rintro vs v ⟨hr, hv⟩
      exact ⟨congrArg (Except.map _) hr, hv⟩
    · rintro e v ⟨hr, hv⟩
      exact ⟨congrArg (Except.map _) hr, hv⟩
  | remove keys =>
    refine (obeys_map _ _ _).2 ((obeys_bind _ _ _ _).2 ?_)
    refine (obeys_writeAll hc h hb .tombstone _).mono ?_ ?_
    · rintro vs v ⟨hr, hv⟩
      exact ⟨congrArg (Except.map _) hr, hv⟩
    · rintro e v ⟨hr, hv⟩
      exact ⟨congrArg (Except.map _) hr, hv⟩
  | get keys =>
    have hget := abides_get h.inv (h.rests 0) (fun _ => rfl) keys
    refine (obeys_map _ _ _).2 (hget.obeys.mono ?_ ?_)
    · rintro es v ⟨hv, hr⟩
      obtain ⟨hlog, hstands⟩ := h.keep hc hv
      rw [hlog] at hr
      exact ⟨congrArg (Except.map _) (h.lookup hfloor (f := id) (fun _ _ => rfl) rfl hr), hstands⟩
    · rintro e v ⟨hv, hfails⟩
      obtain ⟨hlog, hstands⟩ := h.keep hc hv
      exact ⟨congrArg (Except.map _) ((hfails hc).lookup (hlog ▸ hb) m _), hstands⟩
  | getKeys keys =>
    have hget := abides_getKeys h.inv (h.rests 0) (fun _ => rfl) keys
    refine (obeys_map _ _ _).2 (hget.obeys.mono ?_ ?_)
    · rintro ks v ⟨hv, hr⟩
      obtain ⟨hlog, hstands⟩ := h.keep hc hv
      rw [hlog] at hr
      have hview (x : Nat) (r : Record) : r.keyAt x = (r.entryAt x).map TableEntry.key := by
        rw [Record.keyAt, Record.entryAt, Option.map_map]
        rfl
      have hlookup := h.lookup hfloor (f := Option.map TableEntry.key) hview rfl hr
      exact ⟨congrArg (Except.map _) hlookup, hstands⟩
    · rintro e v ⟨hv, hfails⟩
      obtain ⟨hlog, hstands⟩ := h.keep hc hv
      exact ⟨congrArg (Except.map _) ((hfails hc).lookup (hlog ▸ hb) m _), hstands⟩
  | index connector limit =>
    obtain ⟨hm, -, hname, hid⟩ := hop
    refine (obeys_map _ _ _).2 ((abides_index hm hname hid h.inv (h.rests 0)).obeys.mono ?_ ?_)
    · exact fun n v hv => ⟨rfl, (h.keep hc hv).2⟩
    · exact fun e v hv => absurd hc hv.2

end Site

namespace Tables

/-- What operations answer that are run one after the other, each with time left, while cached heads
get lost. -/
def session (config : Config) (name : String) (lost : Nat → List Bucket) :
    List Operation → Nat → Container → Tables → List (Except TableError Reply)
  | [], _, _, _ => []
  | op :: ops, n, c, t =>
    let (r, n, c, t) := (op.program config name).runAmid (fun n => evict (lost n)) n c t
    r :: session config name lost ops n c t

end Tables

theorem Site.Stands.session {S : Site} {c : Container} {t : Tables} {g : Account} {m : Reference}
    {ops : List Operation} (hc : S.calm) (hfloor : ∀ h, S.floor h = 0)
    (h : S.Stands ⟨c, t, g⟩ m) (hf : ∀ op ∈ ops, op.Fits S.config S.name S.segment 0)
    (hb : ∀ h, (m.after S.config ops).count h ≤ S.config.maxChainLength)
    (lost : Nat → List Bucket) (n : Nat) :
    Tables.session S.config S.name lost ops n c t = m.replies S.config ops := by
  induction ops generalizing n c t g m with
  | nil => rfl
  | cons op ops ih =>
    have hle (k : KeyHash) : m.count k ≤ S.config.maxChainLength :=
      Nat.le_trans (Reference.count_after_le m (op :: ops) k) (hb k)
    obtain ⟨r, n', c', t', g', hrun, hr⟩ := Site.runAmid_of_calm hc h.inv
      (Site.obeys_step hc hfloor h hle (hf op (by simp))) lost n
    have hstep : (m.step S.config op).1 = r ∧ S.Stands ⟨c', t', g'⟩ (m.step S.config op).2 := by
      rcases hr with ⟨a, rfl, hstep⟩ | ⟨e, rfl, hstep⟩
      · exact hstep
      · exact hstep
    unfold Tables.session Reference.replies
    rw [hrun, hstep.1]
    dsimp only
    rw [ih hstep.2 (fun op hop => hf op (by simp [hop])) hb]

/-- A table that was just created behaves as an empty map, for any hasher, in any mode, and whatever
cached heads get lost: each operation answers what it answers on the map, as long as no bucket has
too many records. -/
theorem session_eq_replies {config : Config} {name : String} {segment : Nat} {c c' : Container}
    {ops : List Operation} (hc : c.create name initialAttributes = .ok c')
    (hn : c'.resolve name = .ok segment) (hf : ∀ op ∈ ops, op.Fits config name segment 0)
    (hb : ∀ h, (Reference.empty.after config ops).count h ≤ config.maxChainLength)
    (lost : Nat → List Bucket) :
    Tables.session config name lost ops 0 c' (.initial config) =
      Reference.empty.replies config ops := by
  refine Site.Stands.session (S := .created config name segment True) trivial (fun _ => rfl)
    ⟨Site.inv_created hc hn, fun i => ?_, rfl⟩ hf hb lost 0
  exact ⟨rfl, fun _ h => (by cases h), fun h => (by cases h)⟩

/-- Keys that share a bucket are kept apart while its head gets lost and its links move. -/
theorem session_eq_replies_of_collision :
    let config := Config.parity .deferred
    let ops : List Operation :=
      [.put [⟨⟨[97], none⟩, [1]⟩, ⟨⟨[98], none⟩, [2]⟩, ⟨⟨[97], none⟩, [3]⟩],
        .index ⟨⟨0, "t", 0⟩, false⟩ none, .remove [⟨[98], none⟩], .put [⟨⟨[99], none⟩, [4]⟩],
        .get [[97], [98], [97], [99]], .getKeys [[99], [101]]]
    (∀ h, (Reference.empty.after config ops).count h ≤ config.maxChainLength) ∧
    Tables.session config "t" (fun _ => [⟨0, ⟨0x100000000000000, 0⟩⟩]) ops 0 .solo
        (.initial config) =
      [.ok (.versions [0, 20, 40]), .ok .indexed, .ok .removed, .ok (.versions [79]),
        .ok (.entries [some ⟨⟨[97], some 40⟩, [3]⟩, none, some ⟨⟨[97], some 40⟩, [3]⟩,
          some ⟨⟨[99], some 79⟩, [4]⟩]), .ok (.keys [some ⟨[99], some 79⟩, none])] := by
  intro config ops
  have hf : ∀ op ∈ ops, op.Fits config "t" 0 0 := by
    simp [ops, Operation.Fits, config, Config.parity]
  have hb (h : KeyHash) : (Reference.empty.after config ops).count h ≤ config.maxChainLength :=
    Nat.le_trans (Reference.count_after_le_length _ _ h) (show 0 + _ ≤ _ by decide +kernel)
  refine ⟨hb, ?_⟩
  rw [session_eq_replies Container.create_solo Container.resolve_solo hf hb]
  decide +kernel

end KeyedLog
