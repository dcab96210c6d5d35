import KeyedLog.Proofs.Run.Sessions

/-! Tables as an index finds them when it is opened: just created, or as another index left them. -/
namespace KeyedLog

namespace Container

variable {c c' : Container} {name : String} {segment : Nat} {updates : List AttributeUpdate}

/-- A new segment is empty, but for its attributes. -/
theorem segment_create (hc : c.create name updates = .ok c') (hn : c'.resolve name = .ok segment) :
    c'.segment segment = .ofAttributes name updates := by
  obtain ⟨hlt, hlive⟩ := live_of_resolve hn
  unfold create at hc
  split at hc
  · cases hc
  · next e he =>
    obtain rfl := Except.ok.inj hc
    dsimp only [Container.segment] at hlt hlive ⊢
    rw [Array.size_push] at hlt
    by_cases hold : segment < c.segments.size
    · rw [Array.getElem?_push_lt hold, Option.getD_some] at hlive
      have hnone : c.segments.findIdx? (Live name) = none := by
        unfold resolve at he
        split at he
        · cases he
        · next h => exact h
      have hdead := Array.findIdx?_eq_none_iff.1 hnone _ (Array.getElem_mem hold)
      rw [hlive] at hdead
      cases hdead
    · obtain rfl : segment = c.segments.size := by omega
      rw [Array.getElem?_push_size, Option.getD_some]

end Container

namespace Site

section Reopen

variable {S : Site} {config : Config} {w : World Tables Account} {log : List Record}
  {a : Attributes} {x y : Nat} {h : KeyHash}

open Classical in
/-- Where an index that is opened next can follow a bucket to. What lies behind a cut is lost. -/
noncomputable def reach (S : Site) (log : List Record) (a : Attributes) (h : KeyHash) : Nat :=
  if S.config.mode = .inline ∧ a.Cut (S.Entry log · h) h then a[AttributeId.indexOffset]?.getD 0
  else S.floor h

theorem reach_of_cut (hm : S.config.mode = .inline) (hc : a.Cut (S.Entry log · h) h) :
    S.reach log a h = a[AttributeId.indexOffset]?.getD 0 := if_pos ⟨hm, hc⟩

theorem reach_of_uncut (hc : ¬(S.config.mode = .inline ∧ a.Cut (S.Entry log · h) h)) :
    S.reach log a h = S.floor h := if_neg hc

theorem Faithful.reach_le {g : Ledger} (hf : S.Faithful g a) (h : KeyHash) :
    ∃ n, a[AttributeId.indexOffset]? = some n ∧ S.reach g.log a h ≤ n := by
  obtain ⟨n, hn, -, hfloor⟩ := hf.index
  refine ⟨n, hn, ?_⟩
  unfold reach
  split
  · exact Nat.le_of_eq (by rw [hn, Option.getD_some])
  · exact hfloor h

/-- Where an index is opened on what another one has left. -/
noncomputable def reopened (S : Site) (config : Config) (hw : S.Inv w) (calm : Prop)
    (ready : calm → config.mode = .inline) : Site where
  config := config
  name := S.name
  segment := S.segment
  place := 0
  start := Log.size w.ghost.log
  floor := S.reach w.ghost.log (S.scene w).attributes
  calm := calm
  floor_le h := by
    obtain ⟨n, hn, hle⟩ := hw.coherent.faithful.reach_le h
    obtain ⟨m, hm, hbound, -⟩ := hw.coherent.faithful.index
    obtain rfl := Option.some.inj (hn.symm.trans hm)
    exact Nat.le_trans hle hbound.le
  ready hc hm := by
    rw [ready hc] at hm
    cases hm

theorem lastBefore_of_cut {p : Nat} (hcut : a.Cut (S.Entry log · h) h)
    (hx : ¬a.Indexed x) (he : S.Entry log x h) (hp : a[AttributeId.backpointer x]? = some p)
    (hlast : LastBefore (S.Entry log · h) x (some p)) : ¬a.Indexed p := by
  intro hip
  obtain ⟨-, f, -, -, -, hf, hif, hbelow, -, -, hnone⟩ := hcut
  rcases Nat.lt_trichotomy f x with hfx | rfl | hxf
  · exact hif (hip.of_le (hlast.le hf hfx))
  · rw [hnone] at hp
    cases hp
  · exact hx (hbelow x he hxf)

/-- A bucket is within reach as far as it was, or else from the index offset on. -/
def Resumes (S S' : Site) (log : List Record) (a : Attributes) (h : KeyHash) : Prop :=
  ((∀ x, S'.Entry log x h ↔ S.Entry log x h) ∧
      (S.config.mode = .inline → ¬a.Cut (S.Entry log · h) h)) ∨
    (a.Cut (S.Entry log · h) h ∧ ∀ x, S'.Entry log x h ↔ S.Entry log x h ∧ ¬a.Indexed x)

namespace Resumes

variable {S' : Site} {g : Ledger} {p : Option Nat}

theorem entry (hr : S.Resumes S' log a h) (he : S'.Entry log x h) : S.Entry log x h := by
  rcases hr with ⟨hr, -⟩ | ⟨-, hr⟩
  · exact (hr x).1 he
  · exact ((hr x).1 he).1

theorem of_indexed (hr : S.Resumes S' log a h) (he : S'.Entry log x h) (hx : a.Indexed x) :
    ∀ y, S'.Entry log y h ↔ S.Entry log y h := by
  rcases hr with ⟨hr, -⟩ | ⟨-, hr⟩
  · exact hr
  · exact absurd hx ((hr x).1 he).2

theorem backpointer (hr : S.Resumes S' log a h) {q : Nat} (he : S'.Entry log x h)
    (hq : a[AttributeId.backpointer x]? = some q)
    (hlast : LastBefore (S.Entry log · h) x (some q)) :
    LastBefore (S'.Entry log · h) x (some q) := by
  rcases hr with ⟨hr, -⟩ | ⟨hcut, hr⟩
  · exact hlast.congr fun y _ => (hr y).symm
  · obtain ⟨heS, hx⟩ := (hr x).1 he
    refine LastBefore.some_iff.2 ⟨(hr q).2 ⟨hlast.mem, ?_⟩, hlast.lt, fun y hy hyx => ?_⟩
    · exact lastBefore_of_cut hcut hx heS hq hlast
    · exact hlast.le ((hr y).1 hy).1 hyx

theorem bucket (hr : S.Resumes S' log a h) (hy : a[AttributeId.bucket h]? = some y)
    (he : S.Entry log y h) : S'.Entry log y h := by
  rcases hr with ⟨hr, -⟩ | ⟨⟨-, -, z, -, -, -, -, -, hz, hzi, -⟩, hr⟩
  · exact (hr y).2 he
  · obtain rfl := Option.some.inj (hy.symm.trans hz)
    exact (hr y).2 ⟨he, hzi⟩

/-- What is persisted stays true for what is within reach. -/
theorem faithful (hr : ∀ h, S.Resumes S' g.log a h) (hm : S'.config.mode = S.config.mode)
    (hfloor : ∃ n, a[AttributeId.indexOffset]? = some n ∧ ∀ h, S'.floor h ≤ n)
    (hf : S.Faithful g a) : S'.Faithful ⟨g.log, fun _ => none⟩ a where
  index := by
    obtain ⟨n, hn, hfloor⟩ := hfloor
    obtain ⟨m, hm, hbound, -⟩ := hf.index
    obtain rfl := Option.some.inj (hn.symm.trans hm)
    exact ⟨n, hn, hbound, hfloor⟩
  indexed {x h} he hx := by
    obtain ⟨hchain, hroot⟩ := hf.indexed ((hr h).entry he) hx
    exact ⟨hchain.congr fun y _ => ((hr h).of_indexed he hx y).symm, hroot⟩
  backpointer_lt := hf.backpointer_lt
  backpointer {x p h} hp he := (hr h).backpointer he hp (hf.backpointer hp ((hr h).entry he))
  bucket {h y} hh hy := by
    refine ⟨(hr h).bucket hy (hf.bucket hh hy).1, .inl ?_⟩
    rintro ⟨i, s, e, hi, -⟩
    cases hi
  deferred hd := hf.deferred (hm ▸ hd)

theorem uncut (hr : ∀ h, S.Resumes S' log a h) (hm : S.config.mode = .inline) :
    S'.Uncut log a := by
  rintro h ⟨x, f, y, hx, hxi, hf, hfi, hbelow, hy⟩
  rcases hr h with ⟨hsame, huncut⟩ | ⟨-, hnew⟩
  · exact huncut hm ⟨x, f, y, (hsame x).1 hx, hxi, (hsame f).1 hf, hfi,
      fun z hz => hbelow z ((hsame z).2 hz), hy⟩
  · exact ((hnew x).1 hx).2 hxi

theorem newest (hr : S.Resumes S' log a h) (hy : S.Newest ⟨log, fun _ => none⟩ a y h) :
    S'.Newest ⟨log, fun _ => none⟩ a y h := by
  obtain ⟨⟨he, hlink⟩, hnewest⟩ := hy
  refine ⟨⟨?_, hlink⟩, fun x hx hxe => hnewest x hx (hr.entry hxe)⟩
  rcases hr with ⟨hsame, -⟩ | ⟨⟨-, f, -, -, -, hf, hfi, -⟩, hnew⟩
  · exact (hsame y).2 he
  · have hfy : f ≤ y := hnewest f ⟨hf.lt, fun ⟨_, _, _, hi, _⟩ => by cases hi⟩ hf
    exact (hnew y).2 ⟨he, fun hi => hfi (hi.of_le hfy)⟩

end Resumes

variable {calm : Prop} {ready : calm → config.mode = .inline}

theorem resumes_reopened (hw : S.Inv w) (hh : config.hasher = S.config.hasher) (h : KeyHash) :
    S.Resumes (S.reopened config hw calm ready) w.ghost.log (S.scene w).attributes h := by
  obtain ⟨n, hn, -, hfloor⟩ := hw.coherent.faithful.index
  have hentry (x : Nat) : (S.reopened config hw calm ready).Entry w.ghost.log x h ↔
      Log.Entry S.config.hasher w.ghost.log x h ∧
        S.reach w.ghost.log (S.scene w).attributes h ≤ x := by
    unfold Entry reopened
    rw [hh]
  by_cases hc : S.config.mode = .inline ∧ (S.scene w).attributes.Cut (S.Entry w.ghost.log · h) h
  · refine .inr ⟨hc.2, fun x => ?_⟩
    rw [hentry, reach_of_cut hc.1 hc.2, hn, Option.getD_some, Attributes.indexed_iff hn, Nat.not_lt]
    constructor
    · rintro ⟨he, hx⟩
      exact ⟨⟨he, Nat.le_trans (hfloor h) hx⟩, hx⟩
    · rintro ⟨⟨he, -⟩, hx⟩
      exact ⟨he, hx⟩
  · refine .inl ⟨fun x => ?_, fun hm hcut => hc ⟨hm, hcut⟩⟩
    rw [hentry, reach_of_uncut hc]
    exact Iff.rfl

/-- Where the reach of a bucket is bounded, something of it is still within reach. -/
theorem exists_entry_reopened (hw : S.Inv w) (hh : config.hasher = S.config.hasher)
    (hS : S.floor h ≠ 0 → ∃ x, S.Entry w.ghost.log x h)
    (hfloor : (S.reopened config hw calm ready).floor h ≠ 0) :
    ∃ x, (S.reopened config hw calm ready).Entry w.ghost.log x h := by
  have hr : S.Resumes (S.reopened config hw calm ready) w.ghost.log (S.scene w).attributes h :=
    resumes_reopened hw hh h
  rcases hr with ⟨hsame, huncut⟩ | ⟨hcut, hnew⟩
  · have hreach : (S.reopened config hw calm ready).floor h = S.floor h :=
      reach_of_uncut fun hc => huncut hc.1 hc.2
    obtain ⟨x, hx⟩ := hS (hreach ▸ hfloor)
    exact ⟨x, (hsame x).2 hx⟩
  · obtain ⟨-, f, -, -, -, hf, hfi, -⟩ := hcut
    exact ⟨f, (hnew f).2 ⟨hf, hfi⟩⟩

/-- Wherever an index stops, another one can take over. -/
theorem inv_reopened (hw : S.Inv w) (hh : config.hasher = S.config.hasher)
    (hm : config.mode = S.config.mode) :
    (S.reopened config hw calm ready).Inv ⟨w.container, .initial config, idle w.ghost.log⟩ := by
  have hr (h : KeyHash) : S.Resumes (S.reopened config hw calm ready) w.ghost.log
      (S.scene w).attributes h := resumes_reopened hw hh h
  have hwell : Log.Wellformed config.hasher w.ghost.log := hh ▸ hw.coherent.wellformed
  obtain ⟨n, hn, -, -⟩ := hw.coherent.faithful.index
  refine inv_opened ⟨hw.stores.resolve, hw.stores.data⟩ hwell rfl rfl ?_ fun hi => ?_
  · refine Resumes.faithful hr hm ⟨n, hn, fun h => ?_⟩ hw.coherent.faithful
    obtain ⟨m, hm, hle⟩ := hw.coherent.faithful.reach_le h
    obtain rfl := Option.some.inj (hn.symm.trans hm)
    exact hle
  · exact Resumes.uncut hr (hm.symm.trans hi)

end Reopen

section Created

variable {c c' : Container} {config : Config} {name : String} {segment : Nat} {calm : Prop}

def created (config : Config) (name : String) (segment : Nat) (calm : Prop) : Site where
  config := config
  name := name
  segment := segment
  place := 0
  start := 0
  floor _ := 0
  calm := calm
  floor_le _ := Nat.le_refl 0
  ready _ _ := rfl

theorem getElem?_initialAttributes (id : AttributeId) :
    (Attributes.updateAll ∅ initialAttributes)[id]? =
      if AttributeId.indexOffset = id then some 0 else none := by
  change (Attributes.update ∅ (.replace .indexOffset 0))[id]? = _
  rw [Attributes.getElem?_update, Std.ExtTreeMap.getElem?_empty]
  rfl

theorem inv_created (hc : c.create name initialAttributes = .ok c')
    (hn : c'.resolve name = .ok segment) :
    (created config name segment calm).Inv ⟨c', .initial config, idle []⟩ := by
  have hseg := Container.segment_create hc hn
  have hattr (id : AttributeId) : (c'.segment segment).attributes[id]? =
      if AttributeId.indexOffset = id then some 0 else none := by
    rw [hseg]
    exact getElem?_initialAttributes id
  have hnone {x : Nat} {h : KeyHash} (he : (created config name segment calm).Entry [] x h) :
      False := Nat.not_lt_zero _ he.lt
  have hdata : (c'.segment segment).data = Record.encodeAll recordChecksum [] := by
    rw [hseg]
    rfl
  refine inv_opened ⟨hn, hdata⟩ (fun r hr => by cases hr) rfl rfl ?_
    fun _ h ⟨x, _, _, hx, _⟩ => hnone hx
  change (created config name segment calm).Faithful _ (c'.segment segment).attributes
  exact
    { index := ⟨0, (hattr _).trans (if_pos rfl), Log.boundary_zero [], fun _ => Nat.le_refl 0⟩
      indexed := fun he _ => (hnone he).elim
      backpointer_lt := fun {x p} hp => by
        rw [hattr, if_neg (AttributeId.backpointer_ne_indexOffset x).symm] at hp
        cases hp
      backpointer := fun _ he => (hnone he).elim
      bucket := fun hh hy => by
        rw [hattr, if_neg (AttributeId.bucket_ne_indexOffset hh).symm] at hy
        cases hy
      deferred := fun _ _ _ hh hy => by
        rw [hattr, if_neg (AttributeId.bucket_ne_indexOffset hh).symm] at hy
        cases hy }

end Created

end Site

/-- Containers in which an index may find a table: it was just created, or an index on it with the
same hasher and in the same mode has stopped, at whatever point. -/
inductive Left (hasher : Hasher) (mode : IndexingMode) (name : String) (segment : Nat) :
    Container → Prop
  | created {c c' : Container} (hc : c.create name initialAttributes = .ok c')
      (hn : c'.resolve name = .ok segment) : Left hasher mode name segment c'
  | stopped {c : Container} {config : Config} {es : List (Pool.Event Tables Reply)}
      {z : Pool Tables Reply} (hc : Left hasher mode name segment c)
      (hh : config.hasher = hasher) (hm : config.mode = mode)
      (h : Pool.Steps Pool.surroundings (.opened config c) es z)
      (hf : ∀ e ∈ es, e.Fits config name segment) : Left hasher mode name segment z.container

namespace Site

/-- An index that is opened on such a table finds everything in order. -/
theorem exists_of_left {hasher : Hasher} {mode : IndexingMode} {name : String} {segment : Nat}
    {c : Container} {config : Config} (hc : Left hasher mode name segment c)
    (hh : config.hasher = hasher) (hm : config.mode = mode) :
    ∃ (S : Site) (log : List Record), S.config = config ∧ S.name = name ∧ S.segment = segment ∧
      ¬S.calm ∧ S.start = Log.size log ∧ S.Inv ⟨c, .initial config, idle log⟩ ∧
      ∀ h, S.floor h ≠ 0 → ∃ x, S.Entry log x h := by
  induction hc generalizing config with
  | created hc hn =>
    exact ⟨created config name segment False, [], rfl, rfl, rfl, id, rfl, inv_created hc hn,
      fun h hfloor => absurd rfl hfloor⟩
  | @stopped c config' es z hc hh' hm' h hf ih =>
    obtain ⟨S, log, hconfig, hname, hsegment, hcalm, -, hinv, hfloor⟩ := ih hh' hm'
    subst hconfig hname hsegment
    obtain ⟨g, hz, -, hgrow⟩ := sound_of_fits hcalm h hf (sound_opened hinv)
    refine ⟨S.reopened config hz.inv False False.elim, g.log, rfl, rfl, rfl, id, rfl,
      inv_reopened hz.inv (hh.trans hh'.symm) (hm.trans hm'.symm), fun h => ?_⟩
    refine exists_entry_reopened hz.inv (hh.trans hh'.symm) fun hne => ?_
    obtain ⟨x, hx⟩ := hfloor h hne
    exact ⟨x, hx.mono hgrow.log⟩

end Site
end KeyedLog
