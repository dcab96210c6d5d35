import KeyedLog.Proofs.Run.Freshness
import KeyedLog.Proofs.Write.AppendLast

/-! Dropping what is known of a segment while nobody is at work with it: the next access finds all
that was written, and cached heads may stay. -/
namespace KeyedLog

namespace Tables

open Program

section Resolve

variable {α : Type} {config : Config} {segment : Nat} {name : String}

theorem calls_locked {P : Call → Prop} (hl : ∀ q : Call, q.Inquires name segment → P q)
    (hu : ∀ us, P (.updateAttributes segment us)) (batch : Batch) {data : Bytes}
    (ha : P (.append segment data)) :
    (locked (bucketsOf segment batch)
      (guarded config segment batch (request (.append segment data)))).Calls P := by
  unfold locked guarded linking
  refine Calls.bind (fun _ => trivial) fun _ => Calls.ensuring ?_ fun _ => trivial
  refine (calls_access hl fun _ => hu).bind fun ref => (calls_headsWith hl _).bind fun current => ?_
  refine (calls_request (q := .append segment data) ha).bind fun offset => ?_
  refine Calls.bind (fun _ => trivial) fun _ => ?_
  split
  · exact (calls_persist hu ref _).bind fun _ => trivial
  · trivial

/-- Whoever still has to find a segment by its name is not at work with the state of any. -/
theorem not_engaged_resolve (k : Except TableError Nat → Program Tables α) :
    ¬Engaged config segment (.call (.resolve name) k) := by
  have hl (q : Call) (hq : q.Inquires (name ++ "+") segment) : q ≠ .resolve name := by
    rintro rfl
    have hname : name = name ++ "+" := hq
    have hlength := congrArg String.length hname
    simp at hlength
  have hu (us : List AttributeUpdate) : Call.updateAttributes segment us ≠ .resolve name := nofun
  have haccess : (access config segment).Calls (· ≠ .resolve name) := calls_access hl fun _ => hu
  have hwithin {β : Type} {whole : Program Tables β} {f : β → Program Tables α}
      (hw : whole.Calls (· ≠ .resolve name)) :
      ¬(Program.call (.resolve name) k).Within whole f := by
    rintro ⟨q, hq, hover, he⟩
    have hq := hw.comesTo hq
    cases q with
    | call c k' =>
      obtain rfl : Call.resolve name = c := by injection he
      exact hq.1 rfl
    | ret a => exact hover ⟨.ok a, rfl⟩
    | fail e => exact hover ⟨.error e, rfl⟩
    | get | set | await | clock | pause => cases he
  rintro (h | h | h)
  · refine hwithin (haccess.bind fun ref => ?_) h
    exact Calls.bind (p := Program.read) (fun _ => trivial) fun _ => trivial
  · exact hwithin (haccess.bind fun _ => calls_headsWith hl _) h
  · exact hwithin (calls_locked hl hu _ nofun) h

end Resolve

end Tables

namespace Pool

variable {σ α : Type}

def Idle (y : Pool σ α) : Prop := ∀ i, y.threads i = none

/-- The state of a segment is dropped, as when the connector of its indexer is closed. -/
def drop (y : Pool Tables α) (segment : Nat) : Pool Tables α :=
  { y with state := y.state.notify segment none }

/-- Every bucket of a segment can be followed past the index offset, if writes index themselves. -/
def Whole (y : Pool Tables α) (config : Config) (segment : Nat) : Prop :=
  config.mode = .inline → ∀ h, ¬(y.container.segment segment).attributes.Cut
    (· ∈ y.container.bucket segment config.hasher h) h

/-- Runs in which the state of a segment may be dropped whenever nobody in flight is at work with it
and no bucket is cut. -/
inductive Sittings (config : Config) (segment : Nat) :
    Pool Tables Reply → List (Event Tables Reply) → Pool Tables Reply → Prop
  | refl (y : Pool Tables Reply) : Sittings config segment y [] y
  | step {y z w : Pool Tables Reply} {e es} (h : Step surroundings y e z)
      (hs : Sittings config segment z es w) : Sittings config segment y (e :: es) w
  | drop {y w : Pool Tables Reply} {es}
      (hi : ∀ {i p}, y.threads i = some p → ¬Tables.Engaged config segment p)
      (hw : y.Whole config segment) (hs : Sittings config segment (y.drop segment) es w) :
      Sittings config segment y es w

variable {config : Config} {segment i : Nat} {y z : Pool Tables Reply}
  {es fs : List (Event Tables Reply)}

namespace Sittings

theorem of_steps (h : Steps surroundings y es z) : Sittings config segment y es z := by
  induction h with
  | refl => exact .refl _
  | head h _ ih => exact .step h ih

theorem append {w : Pool Tables Reply} (h : Sittings config segment y es z)
    (h' : Sittings config segment z fs w) : Sittings config segment y (es ++ fs) w := by
  induction h with
  | refl => exact h'
  | step h _ ih => exact .step h (ih h')
  | drop hi hw _ ih => exact .drop hi hw (ih h')

theorem split (h : Sittings config segment y (es ++ fs) z) :
    ∃ m, Sittings config segment y es m ∧ Sittings config segment m fs z := by
  generalize hall : es ++ fs = all at h
  induction h generalizing es with
  | refl y =>
    obtain ⟨rfl, rfl⟩ := List.append_eq_nil_iff.1 hall
    exact ⟨y, .refl y, .refl y⟩
  | @step y _ _ e _ h hs ih =>
    cases es with
    | nil =>
      obtain rfl : fs = _ := hall
      exact ⟨y, .refl y, .step h hs⟩
    | cons f es =>
      obtain ⟨rfl, htail⟩ := List.cons.inj hall
      obtain ⟨m, hm, hz⟩ := ih htail
      exact ⟨m, .step h hm, hz⟩
  | drop hi hw _ ih =>
    obtain ⟨m, hm, hz⟩ := ih hall
    exact ⟨m, .drop hi hw hm, hz⟩

/-- Whatever is dropped before a step, the step is taken. -/
theorem head {e : Event Tables Reply} (h : Sittings config segment y (e :: es) z) :
    ∃ m m', Sittings config segment y [] m ∧ Step surroundings m e m' ∧
      Sittings config segment m' es z := by
  generalize hall : e :: es = all at h
  induction h with
  | refl => cases hall
  | @step y m' _ _ _ h hs =>
    obtain ⟨rfl, rfl⟩ := List.cons.inj hall
    exact ⟨y, m', .refl y, h, hs⟩
  | drop hi hw _ ih =>
    obtain ⟨m, m', hm, hstep, hs⟩ := ih hall
    exact ⟨m, m', .drop hi hw hm, hstep, hs⟩

/-- Who is at work does not start again before the work is over. -/
theorem busy (h : Sittings config segment y es z) (hi : (y.threads i).isSome)
    (hno : ∀ r, .finish i r ∉ es) : ∀ p, .start i p ∉ es := by
  induction h with
  | refl => simp
  | step h _ ih =>
    obtain ⟨hi, hstart⟩ := h.busy hi fun r hr => hno r (by simp [hr])
    intro p hp
    rcases List.mem_cons.1 hp with hp | hp
    · exact hstart p hp.symm
    · exact ih hi (fun r hr => hno r (by simp [hr])) p hp
  | drop _ _ _ ih => exact ih hi hno

end Sittings
end Pool

namespace Account

/-- Who is not at work leaves no account. -/
theorem eq_idle {g : Account} (hr : ∀ i, g.Rests i) : g = Site.idle g.log := by
  obtain ⟨⟨log, fresh⟩, owner, recoverer⟩ := g
  have hfresh : fresh = fun _ => none := funext fun i => (hr i).fresh
  have howner : owner = fun _ => none := by
    funext h
    cases hown : owner h with
    | none => rfl
    | some i => exact absurd hown ((hr i).owner h)
  have hrecoverer : recoverer = none := by
    cases hrec : recoverer with
    | none => rfl
    | some i => exact absurd hrec (hr i).recoverer
  subst hfresh howner hrecoverer
  rfl

end Account

namespace Site

open Program

variable {S T : Site} {i : Nat} {w v : World Tables Account} {y z : Pool Tables Reply}
  {g : Account} {ds es fs : List (Pool.Event Tables Reply)}
  {posts : Nat → Reply → Site → World Tables Account → Prop}
  {ok : Pool.Event Tables Reply → Prop}

/-- Whoever drops a state that nobody works with leaves everything in order, for a site that follows
buckets no further than it can. -/
theorem inv_dropped (hw : S.Inv w) (hrest : ∀ i, w.ghost.Rests i)
    (hresumes : ∀ h, S.Resumes T w.ghost.log (S.scene w).attributes h)
    (hfloor : ∃ n, (S.scene w).attributes[AttributeId.indexOffset]? = some n ∧ ∀ h, T.floor h ≤ n)
    (hconfig : T.config = S.config) (hname : T.name = S.name) (hsegment : T.segment = S.segment)
    (hplace : T.place = w.state.states.size) (hstart : T.start = Log.size w.ghost.log) :
    T.Inv ⟨w.container, w.state.notify S.segment none, idle w.ghost.log⟩ := by
  have hidle : (S.scene w).ghost = idle w.ghost.log := Account.eq_idle hrest
  have huntracked : (w.state.notify S.segment none).tracked[S.segment]? = none := by
    simp [Tables.notify]
  obtain ⟨config, name, segment, place, start, floor, calm, hle, hready⟩ := T
  dsimp only at hconfig hname hsegment hplace hstart
  subst hconfig hname hsegment hplace hstart
  refine inv_untracked ⟨hw.stores.resolve, hw.stores.data⟩ hw.coherent.wellformed rfl ?_
    (fun hi => Resumes.uncut hresumes hi) ?_ huntracked (fun h => ?_) fun {h y} hh hy => ?_
  · exact Resumes.faithful hresumes rfl hfloor hw.coherent.faithful
  · exact ⟨hw.serves.opened, hw.serves.indexOpened, .inl ⟨huntracked, rfl⟩⟩
  · have hheld := hw.coherent.held h
    rw [hidle] at hheld
    exact hheld
  · have hnewest := hw.coherent.cache hh hy
    rw [hidle] at hnewest
    exact (hresumes h).newest hnewest

/-- The index works on with a state that begins anew. -/
def renewed (S : Site) (place start : Nat) (hs : S.start ≤ start) (hc : ¬S.calm) : Site :=
  { S with
    place, start
    floor_le := fun h => Nat.le_trans (S.floor_le h) hs
    ready := fun h => absurd h hc }

theorem inv_renewed (hc : ¬S.calm) (hw : S.Inv w) (hr : ∀ i, w.ghost.Rests i)
    (hs : S.start ≤ Log.size w.ghost.log)
    (hu : S.config.mode = .inline → S.Uncut w.ghost.log (S.scene w).attributes) :
    (S.renewed w.state.states.size (Log.size w.ghost.log) hs hc).Inv
      ⟨w.container, w.state.notify S.segment none, idle w.ghost.log⟩ := by
  obtain ⟨n, hn, -, hfloor⟩ := hw.coherent.faithful.index
  exact inv_dropped hw hr (fun h => .inl ⟨fun _ => Iff.rfl, fun hm => hu hm h⟩) ⟨n, hn, hfloor⟩
    rfl rfl rfl rfl rfl

/-- If no bucket is cut, none is within what can be reached. -/
theorem uncut_of_whole (hw : S.Inv w)
    (hu : ∀ h, ¬(S.scene w).attributes.Cut
      (· ∈ w.container.bucket S.segment S.config.hasher h) h) :
    S.Uncut w.ghost.log (S.scene w).attributes := by
  rintro h ⟨x, f, y, hx, hxi, hf, hfi, hbelow, hy⟩
  have hmem {x : Nat} (he : S.Entry w.ghost.log x h) :
      x ∈ w.container.bucket S.segment S.config.hasher h := by
    rw [hw.bucket, Log.mem_bucket]
    exact he.1
  refine hu h ⟨x, f, y, hmem hx, hxi, hmem hf, hfi, fun z hz hzf => ?_, hy⟩
  rw [hw.bucket, Log.mem_bucket] at hz
  obtain ⟨n, hn, -, hfloor⟩ := hw.coherent.faithful.index
  by_cases hzfloor : S.floor h ≤ z
  · exact hbelow z ⟨hz, hzfloor⟩ hzf
  · rw [Attributes.indexed_iff hn]
    have := hfloor h
    omega

/-- Whatever happens next, everybody in flight abides by the rules that are in force. -/
theorem abiding_of_step {e : Pool.Event Tables Reply} (hc : ¬S.calm)
    (h : Pool.Step Pool.surroundings y e z) (hy : y.Abiding succession posts S g)
    (hs : ∀ i p, e = .start i p → g.Rests i → succession.Parked i (posts i) p S (y.world g)) :
    ∃ g', z.Abiding succession posts S g' ∧ Continues S (y.world g) S (z.world g') ∧
      g'.trail = g.trail.after e := by
  obtain ⟨g', hz, hacc⟩ := h.abiding succession_lawful (surroundings_within hc) hy hs
  obtain ⟨htrail, hgrow⟩ := trail_of_accounts hy.inv hz.inv hacc
  exact ⟨g', hz, ⟨.refl S, hgrow.toEndures⟩, htrail⟩

/-- Whoever is not at work with the state goes on with a new one. -/
theorem abiding_of_drop (hc : ¬S.calm) (hy : y.Abiding succession posts S g)
    (hi : ∀ {i p}, y.threads i = some p → ¬Tables.Engaged S.config S.segment p)
    (hw : y.Whole S.config S.segment) :
    ∃ T, (y.drop S.segment).Abiding succession posts T g ∧
      Continues S (y.world g) T ((y.drop S.segment).world g) := by
  have hinv : S.Inv (y.world g) := hy.inv
  have hrest (i : Nat) : g.Rests i := by
    cases hp : y.threads i with
    | none => exact hy.rest hp
    | some p => exact (hy.parked hp).1 (hi hp)
  have hstart : S.start ≤ Log.size g.log := hinv.coherent.start.le
  have hdrop := inv_renewed hc hinv hrest hstart fun hm => uncut_of_whole hinv (hw hm)
  rw [show idle (y.world g).ghost.log = g from (Account.eq_idle hrest).symm] at hdrop
  have hcont : Continues S (y.world g) (S.renewed y.state.states.size (Log.size g.log) hstart hc)
      ((y.drop S.segment).world g) :=
    ⟨.mk _ _ hstart _ _, List.prefix_rfl, id, .refl _⟩
  exact ⟨_, hy.renew succession_lawful (fun hp => hi hp) rfl hdrop fun i =>
    ⟨⟨hcont, fun _ _ => rfl⟩, id, fun _ _ => rfl⟩, hcont⟩

/-- In every run all stays in order, whatever is dropped in between. -/
theorem abiding_of_sittings (hc : ¬S.calm) (h : Pool.Sittings S.config S.segment y es z)
    (hok : ∀ e ∈ es, ok e)
    (hs : ∀ {i p T w}, ok (.start i p) → S.Renews T → T.Inv w → w.ghost.Rests i →
      succession.Parked i (posts i) p T w)
    (hy : y.Abiding succession posts S g) :
    ∃ T g', z.Abiding succession posts T g' ∧ Continues S (y.world g) T (z.world g') ∧
      g'.trail = es.foldl Trail.after g.trail := by
  generalize hconfig : S.config = config at h
  generalize hsegment : S.segment = segment at h
  induction h generalizing S g with
  | refl => exact ⟨S, g, hy, .refl S _, rfl⟩
  | step h _ ih =>
    obtain ⟨g₁, hs₁, hcont₁, ht₁⟩ := abiding_of_step hc h hy fun i p he hrest =>
      hs (he ▸ hok _ (by simp)) (.refl S) hy.inv hrest
    obtain ⟨T, g', hz, hcont, ht⟩ :=
      ih hc (fun e he => hok e (by simp [he])) hs hs₁ hconfig hsegment
    exact ⟨T, g', hz, hcont₁.trans hcont, by rw [ht, ht₁]; rfl⟩
  | drop hi hw _ ih =>
    subst hconfig hsegment
    obtain ⟨S₁, hs₁, hcont₁⟩ := abiding_of_drop hc hy hi hw
    have hr := hcont₁.renews
    obtain ⟨T, g', hz, hcont, ht⟩ := ih (fun h => hc (hr.calm.1 h)) hok
      (fun hp hT => hs hp (hr.trans hT)) hs₁ hr.config hr.segment
    exact ⟨T, g', hz, hcont₁.trans hcont, ht⟩

/-- Of a single program that starts it is to be shown what it finds out. -/
theorem abiding_of_start {Q : Reply → Site → World Tables Account → Prop}
    {p : Program Tables Reply} (hc : ¬S.calm)
    (h : Pool.Step Pool.surroundings y (.start i p) z)
    (hy : y.Abiding succession (fun _ _ _ _ => True) S g)
    (hQ : ∀ {r T v U u}, Continues T v U u → Q r T v → Q r U u)
    (hp : ∀ T v, T.Inv v → v.ghost.Rests i → Continues S (y.world g) T v →
      p.Abides succession i (fun r U u => u.ghost.Rests i ∧ Q r U u)
        (fun _ _ u => u.ghost.Rests i) T v) :
    ∃ g', z.Abiding succession (fun j r T w => j = i → Q r T w) S g' ∧
      Continues S (y.world g) S (z.world g') ∧ g'.trail = g.trail := by
  have hidle : y.threads i = none := by
    cases h
    assumption
  have hy : y.Abiding succession (fun j r T w => j = i → Q r T w) S g :=
    hy.repost fun hj _ _ _ _ hji => by
      rw [hji, hidle] at hj
      cases hj
  refine abiding_of_step hc h hy fun j q hq hrest => ?_
  obtain ⟨rfl, rfl⟩ := Pool.Event.start.inj hq
  refine awaits_of_rests hrest fun T v hv hyv => ?_
  refine (hp T v hv (hyv.rests hrest) hyv.toContinues).mono ?_ fun _ _ _ h => h
  exact fun r U u hu => ⟨hu.1, fun V t ht hut _ => hQ hut.toContinues hu.2⟩

/-- What a program that is over has found out, whatever went on before it, beside it and after
it. -/
theorem abiding_of_operation {Q : Reply → Site → World Tables Account → Prop}
    {p : Program Tables Reply} {r : Reply} (hc : ¬S.calm)
    (hpark : ∀ {i p T w}, ok (.start i p) → S.Renews T → T.Inv w → w.ghost.Rests i →
      succession.Parked i (fun _ _ _ => True) p T w)
    (hQ : ∀ {r T v U u}, Continues T v U u → Q r T v → Q r U u)
    (hp : ∀ T v, T.Inv v → v.ghost.Rests i → Continues S (y.world g) T v →
      p.Abides succession i (fun r U u => u.ghost.Rests i ∧ Q r U u)
        (fun _ _ u => u.ghost.Rests i) T v)
    (hy : y.Abiding succession (fun _ _ _ _ => True) S g)
    (h : Pool.Sittings S.config S.segment y
      (ds ++ (.start i p :: fs ++ .finish i (.ok r) :: es)) z)
    (hf : ∀ e ∈ ds ++ fs ++ es, ok e) (hno : ∀ r, .finish i r ∉ fs) :
    ∃ T g', z.Abiding succession (fun _ _ _ _ => True) T g' ∧ Q r T (z.world g') ∧
      Continues S (y.world g) T (z.world g') ∧
      g'.trail = es.foldl Trail.after (fs.foldl Trail.after (ds.foldl Trail.after g.trail)) := by
  obtain ⟨k, hk, hrest⟩ := h.split
  obtain ⟨m, m', hm, hstart, hrest⟩ := hrest.head
  obtain ⟨n, hfs, hlast⟩ := hrest.split
  obtain ⟨n', z', hn, hfinish, hz⟩ := hlast.head
  have hwork : (m'.threads i).isSome := by
    cases hstart
    simp [Pool.assign]
  obtain ⟨S₁, g₁, hs₁, hcont₁, ht₁⟩ :=
    abiding_of_sittings hc (hk.append hm) (fun e he => hf e (by simp_all)) hpark hy
  have hr₁ := hcont₁.renews
  have hc₁ (h : S₁.calm) : False := hc (hr₁.calm.1 h)
  obtain ⟨g₂, hs₂, hcont₂, ht₂⟩ := abiding_of_start (Q := Q) hc₁ hstart hs₁ hQ
    fun T v hv hrest hmv => hp T v hv hrest (hcont₁.trans hmv)
  have hothers (e : Pool.Event Tables Reply) (he : e ∈ fs ++ []) : ok e ∧ ∀ p, e ≠ .start i p := by
    rw [List.append_nil] at he
    exact ⟨hf e (by simp [he]), fun p hp => hfs.busy hwork hno p (hp ▸ he)⟩
  have hfs := hfs.append hn
  rw [← hr₁.config, ← hr₁.segment] at hfs
  obtain ⟨T, g₃, hs₃, hcont₃, ht₃⟩ := abiding_of_sittings hc₁ hfs hothers
    (fun {j q T w} hq hT hw hrest => by
      refine (hpark hq.1 (hr₁.trans hT) hw hrest).mono fun r U u _ hji => ?_
      exact absurd (by rw [hji]) (hq.2 q)) hs₂
  have hcont := hcont₁.trans (hcont₂.trans hcont₃)
  have hcT (h : T.calm) : False := hc (hcont.renews.calm.1 h)
  obtain ⟨g₄, hs₄, hg₄, -, hpost⟩ := hfinish.abiding succession_lawful (surroundings_within hcT) hs₃
    fun j q hq => by cases hq
  obtain rfl : g₄ = g₃ := congrArg World.ghost hg₄
  rw [← hcont.renews.config, ← hcont.renews.segment] at hz
  obtain ⟨U, g₅, hs₅, hcont₅, ht₅⟩ := abiding_of_sittings hcT hz (fun e he => hf e (by simp [he]))
    (fun hq hT => hpark hq (hcont.renews.trans hT)) (hs₄.repost fun _ _ _ _ _ => trivial)
  rw [hg₄] at hcont₅
  refine ⟨U, g₅, hs₅, hQ hcont₅ (hpost rfl), hcont.trans hcont₅, ?_⟩
  rw [ht₅, ht₃, ht₂, ht₁, List.append_nil, List.append_nil]

/-- Operations abide by the rules, also if the state is dropped after they have started. -/
theorem parked_amid_drops {p : Program Tables Reply} (hc : ¬S.calm)
    (hp : (Pool.Event.start i p).Fits S.config S.name S.segment) (hT : S.Renews T)
    (hrest : w.ghost.Rests i) : succession.Parked i (fun _ _ _ => True) p T w := by
  obtain ⟨op, hop, rfl⟩ := hp
  refine awaits_of_rests hrest fun U u hu hwu => ?_
  have hrest' := hwu.rests hrest
  cases hT.trans hwu.renews
  exact (abides_operation hu hrest' (fun h => absurd h hc) hop).mono
    (fun _ _ _ h => ⟨h.1, fun _ _ _ _ => trivial⟩) fun _ _ _ h => h

theorem abiding_of_fits (hc : ¬S.calm) (h : Pool.Sittings S.config S.segment y es z)
    (hf : ∀ e ∈ es, e.Fits S.config S.name S.segment)
    (hy : y.Abiding succession (fun _ _ _ _ => True) S g) :
    ∃ T g', z.Abiding succession (fun _ _ _ _ => True) T g' ∧
      Continues S (y.world g) T (z.world g') ∧ g'.trail = es.foldl Trail.after g.trail :=
  abiding_of_sittings hc h hf (fun hp hT _ hrest => parked_amid_drops hc hp hT hrest) hy

theorem abiding_opened {c : Container} {log : List Record}
    (hinv : S.Inv ⟨c, .initial S.config, idle log⟩) :
    (Pool.opened S.config c).Abiding succession posts S (idle log) where
  inv := hinv
  parked h := by cases h
  rest _ := ⟨rfl, fun _ h => (by cases h), fun h => (by cases h)⟩

theorem Continues.entries (h : Continues S w T v) (hv : T.Inv v) :
    v.container.entries S.segment = Log.placed 0 v.ghost.log :=
  h.renews.segment ▸ hv.entries

end Site

section Run

variable {config : Config} {name : String} {segment i : Nat} {c : Container}
  {es fs : List (Pool.Event Tables Reply)} {z : Pool Tables Reply}

/-- Whoever gets a key sees a state of it that is at least as new as all that was settled before the
lookup began, whatever is dropped in the meantime. -/
theorem reads_amid_drops {S : Site} {y : Pool Tables Reply} {g : Account} {keys : List Bytes}
    {os : List (Option TableEntry)} (hy : y.Abiding Site.succession (fun _ _ _ _ => True) S g)
    (hc : ¬S.calm)
    (hrun : Pool.Sittings S.config S.segment y
      (.start i ((Operation.get keys).program S.config S.name) :: fs ++
        [.finish i (.ok (.entries os))]) z)
    (hf : ∀ e ∈ fs, e.Fits S.config S.name S.segment) (hno : ∀ r, .finish i r ∉ fs) :
    ∃ T g', z.Abiding Site.succession (fun _ _ _ _ => True) T g' ∧
      List.Forall₂ (S.Reads (S.scene (y.world g)) g'.log Record.entryAt) keys os ∧
      S.Continues (y.world g) T (z.world g') ∧ g'.trail = fs.foldl Trail.after g.trail := by
  have hget (T : Site) (v : World Tables Account) (hv : T.Inv v) (hrest : v.ghost.Rests i)
      (hyv : S.Continues (y.world g) T v) :
      ((Operation.get keys).program S.config S.name).Abides Site.succession i
        (fun r _ u => u.ghost.Rests i ∧ ∀ os, r = .entries os →
          List.Forall₂ (S.Reads (S.scene (y.world g)) u.ghost.log Record.entryAt) keys os)
        (fun _ _ u => u.ghost.Rests i) T v := by
    have hendures := hyv.endures
    cases hyv.renews
    refine Program.Abides.map ((Site.abides_get hv hrest (fun h => absurd h hc) keys).mono
      (fun es U u hu => ⟨hu.1.rests, fun os ho => ?_⟩) fun _ U u hu => hu.1.rests)
    obtain rfl := Reply.entries.inj ho
    exact hu.2.imp fun _ _ h => h.before hendures
  have hrun : Pool.Sittings S.config S.segment y
      ([] ++ (.start i ((Operation.get keys).program S.config S.name) :: fs ++
        .finish i (.ok (.entries os)) :: [])) z := hrun
  obtain ⟨T, g', hz, hreads, hcont, ht⟩ := Site.abiding_of_operation hc
    (fun hp hT _ hrest => Site.parked_amid_drops hc hp hT hrest)
    (fun hvu hq os ho => (hq os ho).imp fun _ _ h => h.mono hvu.endures.log)
    hget hy hrun (by simpa using hf) hno
  exact ⟨T, g', hz, hreads os rfl, hcont, ht⟩

/-- Whatever an operation appended is there and linked once it has been acknowledged, and remains so
whatever is dropped. -/
theorem appended_amid_drops {S : Site} {y : Pool Tables Reply} {g : Account} {op : Operation}
    {r : Reply} {ds : List (Pool.Event Tables Reply)} (hc : ¬S.calm)
    (hy : y.Abiding Site.succession (fun _ _ _ _ => True) S g)
    (hrun : Pool.Sittings S.config S.segment y
      (ds ++ (.start i (op.program S.config S.name) :: es ++ .finish i (.ok r) :: fs)) z)
    (hf : ∀ e ∈ ds ++ es ++ fs, e.Fits S.config S.name S.segment)
    (hop : op.Fits S.config S.name S.segment i) (hno : ∀ r, .finish i r ∉ es) :
    ∃ T g', T.Inv (z.world g') ∧ S.Appended op r g'.toLedger ∧
      S.Continues (y.world g) T (z.world g') ∧
      g'.trail = fs.foldl Trail.after (es.foldl Trail.after (ds.foldl Trail.after g.trail)) := by
  have happend (T : Site) (v : World Tables Account) (hv : T.Inv v) (hrest : v.ghost.Rests i)
      (hyv : S.Continues (y.world g) T v) :
      (op.program S.config S.name).Abides Site.succession i
        (fun r _ u => u.ghost.Rests i ∧ S.Appended op r u.ghost.toLedger)
        (fun _ _ u => u.ghost.Rests i) T v := by
    have hstart := hyv.renews.start_le
    cases hyv.renews
    refine (Site.abides_operation hv hrest (fun h => absurd h hc) hop).mono ?_ fun _ _ _ h => h
    exact fun r U u hu => ⟨hu.1, Site.Appended.of_start_le hu.2 hstart⟩
  obtain ⟨T, g', hz, happ, hcont, ht⟩ := Site.abiding_of_operation
    (Q := fun r _ w => S.Appended op r w.ghost.toLedger) hc
    (fun hp hT _ hrest => Site.parked_amid_drops hc hp hT hrest)
    (fun hvu happ => Site.Appended.grow hvu.endures happ) happend hy hrun hf hno
  exact ⟨T, g', hz.inv, happ, hcont, ht⟩

/-- Whoever gets a key sees a state of it that is at least as new as all entries that were linked
before the lookup began, also by operations on states that have been dropped since. These include
all that was acknowledged. No bucket head that is still cached is outdated, unless somebody is about
to link an entry of the bucket. -/
theorem get_upToDate_after_drops {keys : List Bytes} {os : List (Option TableEntry)}
    (hc : Left config.hasher config.mode name segment c)
    (hrun : Pool.Sittings config segment (.opened config c)
      (es ++ (.start i ((Operation.get keys).program config name) :: fs ++
        [.finish i (.ok (.entries os))])) z)
    (hf : ∀ e ∈ es ++ fs, e.Fits config name segment) (hno : ∀ r, .finish i r ∉ fs) :
    let start := (c.segment segment).data.length
    let entries := z.container.entries segment
    let old := fun y => start ≤ y ∧ (es.foldl Trail.after (.quiet start)).Recorded y
    List.Forall₂ (UpToDate entries old) keys os ∧
    (∀ es₀ j op es₁ r es₂,
      es = es₀ ++ (.start j (Operation.program config name op) :: es₁ ++ .finish j (.ok r) :: es₂) →
      op.Fits config name segment j → (∀ r, .finish j r ∉ es₁) →
      ∃ n, (∀ vs, r = .versions vs → vs = (Log.placed n op.records).map (·.1)) ∧
        ∀ e ∈ Log.placed n op.records, e ∈ entries ∧ old e.1) ∧
    ∀ h y, h.Proper → z.state.cache.get? ⟨segment, h⟩ = some y →
      (∀ x ∈ z.container.bucket segment config.hasher h,
        ¬((es ++ fs).foldl Trail.after (.quiet start)).Linking x) →
      y ∈ z.container.bucket segment config.hasher h ∧
        ∀ x ∈ z.container.bucket segment config.hasher h, x ≤ y := by
  intro start entries old
  obtain ⟨S, log, rfl, rfl, rfl, hcalm, hlog, hinv, -⟩ := Site.exists_of_left hc rfl rfl
  have hstart : start = S.start := hlog ▸ hinv.length
  have hquiet : Trail.quiet start = (Site.idle log).trail := by
    rw [hstart, hlog]
    rfl
  have hopened : (Pool.opened S.config c).Abiding Site.succession (fun _ _ _ _ => True) S
      (Site.idle log) := Site.abiding_opened hinv
  obtain ⟨m, hm, hget⟩ := hrun.split
  obtain ⟨T, g, hs, hcont, ht⟩ :=
    Site.abiding_of_fits hcalm hm (fun e he => hf e (by simp [he])) hopened
  have hm' := hcont.entries hs.inv
  cases hcont.renews
  obtain ⟨U, g', hs', hreads, hcont', ht'⟩ := reads_amid_drops hs hcalm hget
    (fun e he => hf e (by simp [he])) hno
  have hentries : entries = Log.placed 0 g'.log := (hcont.trans hcont').entries hs'.inv
  have hold (x : Nat) : old x ↔ S.start ≤ x ∧ g.trail.Recorded x := by
    rw [← hstart, ht, ← hquiet]
  refine ⟨hreads.imp fun key o ho => ?_, ?_, fun h y hh hy hlinking => ?_⟩
  · rw [hentries, funext fun x => propext (hold x)]
    exact ho.upToDate hcont'.endures.log fun _ _ hy =>
      ⟨Nat.le_trans (S.floor_le _) hy.1, hy.2⟩
  · rintro es₀ j op es₁ r es₂ rfl hop hno'
    obtain ⟨V, g₂, hinv₂, ⟨n, hvs, hall⟩, hcont₂, ht₂⟩ := appended_amid_drops hcalm hopened hm
      (fun e he => hf e (by simp_all; tauto)) hop hno'
    have hsame : Log.placed 0 g₂.log = Log.placed 0 g.log :=
      (hcont₂.entries hinv₂).symm.trans hm'
    have htrail : g₂.trail = g.trail := by
      rw [ht₂, ht]
      simp [Trail.after]
    refine ⟨n, hvs, fun e he => ?_⟩
    obtain ⟨hmem, hle, hsettled⟩ := hall e he
    have hsettled : g₂.trail.Recorded e.1 := hsettled
    rw [htrail] at hsettled
    refine ⟨?_, (hold e.1).2 ⟨hle, hsettled⟩⟩
    exact hentries ▸ Log.mem_placed_of_prefix hcont'.endures.log (hsame ▸ hmem)
  · have hcached := Site.Inv.cached hs'.inv hh (y := y)
    have hlinked : ∀ x ∈ z.container.bucket S.segment S.config.hasher h, ¬g'.Fresh x := by
      intro x hx
      have hx := hlinking x hx
      rwa [List.foldl_append, hquiet, ← ht, ← ht'] at hx
    cases hcont'.renews
    exact hcached hy hlinked

/-- A write whose links were not persisted is found by a lookup that had begun before the state was
dropped, and recovers the segment. -/
theorem get_upToDate_after_failed_put :
    ∃ es fs gs y z, Pool.Steps Pool.surroundings (.opened (.parity .inline) .solo)
        (es ++ .start 1 ((Operation.get [[97]]).program (.parity .inline) "t") :: fs) y ∧
      (y.threads 1).bind Pool.asking = some (.resolve "t") ∧
      Pool.Sittings (.parity .inline) 0 (.opened (.parity .inline) .solo)
        (es ++ (.start 1 ((Operation.get [[97]]).program (.parity .inline) "t") :: (fs ++ gs) ++
          [.finish 1 (.ok (.entries [some ⟨⟨[97], some 0⟩, [1]⟩]))])) z ∧
      z.state.states.size = 2 ∧
      List.Forall₂ (UpToDate (z.container.entries 0)
          fun y => 0 ≤ y ∧ (es.foldl Trail.after (.quiet 0)).Recorded y)
        [[97]] [some ⟨⟨[97], some 0⟩, [1]⟩] := by
  let ms : List Pool.Move :=
    .start 0 (.put [⟨⟨[97], none⟩, [1]⟩]) :: Pool.Move.steps 0 18 ++
      .step 0 (.refused .timeout) true :: Pool.Move.steps 0 20
  let x := Pool.drive (.parity .inline) "t" ms (.opened (.parity .inline) .solo)
  let x' := x.2.assign 1 (some ((Operation.get [[97]]).program (.parity .inline) "t"))
  let y := Pool.drive (.parity .inline) "t" (Pool.Move.steps 1 2) x'
  let z := Pool.drive (.parity .inline) "t" (Pool.Move.steps 1 22) (y.2.drop 0)
  obtain ⟨hes, hf⟩ := @Pool.steps_drive (.parity .inline) "t" 0 ms
    (Pool.Move.fits_of_plain (by decide +kernel)) (.opened (.parity .inline) .solo)
  obtain ⟨hfs, hf'⟩ := @Pool.steps_drive (.parity .inline) "t" 0 (Pool.Move.steps 1 2)
    (Pool.Move.fits_of_plain (by decide +kernel)) x'
  obtain ⟨hgs, hf''⟩ := @Pool.steps_drive (.parity .inline) "t" 0 (Pool.Move.steps 1 22)
    (Pool.Move.fits_of_plain (by decide +kernel)) (y.2.drop 0)
  have hidle : x.2.threads 1 = none := Option.isNone_iff_eq_none.1 (by decide +kernel)
  have hbefore := hes.append (.head (.start _ hidle) hfs)
  have hasks : (y.2.threads 1).bind Pool.asking = some (.resolve "t") := by decide +kernel
  have hothers (i : Nat) (hi : i ≠ 1) : y.2.threads i = none := by
    by_cases h0 : i = 0
    · subst h0
      exact Option.isNone_iff_eq_none.1 (by decide +kernel)
    · refine hbefore.idle rfl fun p hp => ?_
      have hall : (x.1 ++ .start 1 ((Operation.get [[97]]).program (.parity .inline) "t") ::
          y.1).all (fun e => e.actor = some 0 ∨ e.actor = some 1) = true := by decide +kernel
      have hactor := of_decide_eq_true (List.all_eq_true.1 hall _ hp)
      exact hactor.elim (fun h => h0 (Option.some.inj h)) fun h => hi (Option.some.inj h)
  have hfree {i : Nat} {p : Program Tables Reply} (hp : y.2.threads i = some p) :
      ¬Tables.Engaged (.parity .inline) 0 p := by
    by_cases hi : i = 1
    · subst hi
      obtain ⟨k, hk⟩ := Pool.exists_of_asking hasks
      obtain rfl := Option.some.inj (hp.symm.trans hk)
      exact Tables.not_engaged_resolve k
    · cases (hothers i hi).symm.trans hp
  have hwhole : y.2.Whole (.parity .inline) 0 := by
    rintro - h ⟨x, -, -, -, hx, -⟩
    have hindex : (y.2.container.segment 0).attributes[AttributeId.indexOffset]? = some 0 := by
      decide +kernel
    exact Nat.not_lt_zero x ((Attributes.indexed_iff hindex).1 hx)
  have hended : (z.2.threads 1).bind Pool.ended =
      some (.ok (.entries [some ⟨⟨[97], some 0⟩, [1]⟩])) := by decide +kernel
  have hrun := (Pool.Sittings.of_steps hbefore).append <| .drop hfree hwhole <|
    .of_steps (hgs.append (.head (Pool.step_of_ended hended) (.refl _)))
  rw [List.append_assoc, List.cons_append, ← List.append_assoc y.1] at hrun
  have hno : ∀ r, .finish 1 r ∉ y.1 ++ z.1 := Pool.not_finish_of_all (by decide +kernel) 1
  refine ⟨x.1, y.1, z.1, y.2, _, hbefore, hasks, hrun, by decide +kernel, ?_⟩
  exact (get_upToDate_after_drops (.created Container.create_solo Container.resolve_solo) hrun
    (fun e he => by
      rcases List.mem_append.1 he with he | he
      · exact hf e he
      · exact (List.mem_append.1 he).elim (hf' e) (hf'' e)) hno).1

end Run
end KeyedLog
