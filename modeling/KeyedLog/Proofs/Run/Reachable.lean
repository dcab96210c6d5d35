import KeyedLog.Proofs.Run.Dropping

/-! States that an index can get into, also by dropping what it knows of a segment whenever nobody
is at work. -/
namespace KeyedLog

namespace Pool

/-- States of an extension that was opened on a table as another one may have left it. Operations
run side by side, and while nobody is at work the state of the segment may be dropped. -/
inductive Reachable (config : Config) (name : String) (segment : Nat) : Pool Tables Reply → Prop
  | opened {c : Container} (hc : Left config.hasher config.mode name segment c) :
      Reachable config name segment (.opened config c)
  | step {y z : Pool Tables Reply} {e} (hy : Reachable config name segment y)
      (h : Step surroundings y e z) (hf : e.Fits config name segment) :
      Reachable config name segment z
  | dropped {y : Pool Tables Reply} (hy : Reachable config name segment y) (hi : y.Idle) :
      Reachable config name segment (y.drop segment)

theorem Reachable.steps {config : Config} {name : String} {segment : Nat} {y z : Pool Tables Reply}
    {es : List (Event Tables Reply)} (hy : Reachable config name segment y)
    (h : Steps surroundings y es z) (hf : ∀ e ∈ es, e.Fits config name segment) :
    Reachable config name segment z :=
  h.keep (fun hstep he hy => hy.step hstep he) hf hy

/-- The index last began to track the segment when the segment was so long. -/
def BeganAt (config : Config) (name : String) (segment start : Nat) (y : Pool Tables Reply) :
    Prop :=
  ∃ m es, Reachable config name segment m ∧ m.Idle ∧ m.state.tracked[segment]? = none ∧
    (m.container.segment segment).data.length = start ∧ Steps surroundings m es y ∧
    ∀ e ∈ es, e.Fits config name segment

theorem Reachable.exists_beganAt {config : Config} {name : String} {segment : Nat}
    {y : Pool Tables Reply} (hy : Reachable config name segment y) :
    ∃ start, BeganAt config name segment start y := by
  induction hy with
  | opened hc =>
    have htracked : (Tables.initial config).tracked[segment]? = none := by simp [Tables.initial]
    exact ⟨_, _, [], .opened hc, fun _ => rfl, htracked, rfl, .refl _, by simp⟩
  | step _ h hf ih =>
    obtain ⟨start, m, es, hm, hidle, htracked, hstart, hes, hfits⟩ := ih
    refine ⟨start, m, _, hm, hidle, htracked, hstart, hes.append (.head h (.refl _)), ?_⟩
    simpa [or_imp, forall_and] using And.intro hfits hf
  | dropped hy hi =>
    exact ⟨_, _, [], .dropped hy hi, hi, by simp [drop, Tables.notify], rfl, .refl _, by simp⟩

end Pool

namespace Site

variable {S : Site} {w : World Tables Account}

/-- The index works on with a state that begins anew, and follows buckets as far as it can. -/
noncomputable def restarted (S : Site) (hw : S.Inv w) (hc : ¬S.calm) : Site :=
  { S.reopened S.config hw S.calm fun h => absurd h hc with place := w.state.states.size }

theorem inv_restarted (hc : ¬S.calm) (hw : S.Inv w) (hrest : ∀ i, w.ghost.Rests i) :
    (S.restarted hw hc).Inv ⟨w.container, w.state.notify S.segment none, idle w.ghost.log⟩ := by
  have hresumes (h : KeyHash) :
      S.Resumes (S.restarted hw hc) w.ghost.log (S.scene w).attributes h := by
    have hr : S.Resumes (S.reopened S.config hw S.calm fun h => absurd h hc) w.ghost.log
        (S.scene w).attributes h := resumes_reopened hw rfl h
    exact hr
  have hfloor : ∃ n, (S.scene w).attributes[AttributeId.indexOffset]? = some n ∧
      ∀ h, (S.restarted hw hc).floor h ≤ n := by
    obtain ⟨n, hn, -, -⟩ := hw.coherent.faithful.index
    refine ⟨n, hn, fun h => ?_⟩
    obtain ⟨m, hm, hle⟩ := hw.coherent.faithful.reach_le h
    obtain rfl := Option.some.inj (hn.symm.trans hm)
    exact hle
  exact inv_dropped hw hrest hresumes hfloor rfl rfl rfl rfl rfl

end Site

/-- In every state that can be reached all is in order. -/
theorem Pool.Reachable.exists_site {config : Config} {name : String} {segment : Nat}
    {y : Pool Tables Reply} (hy : Reachable config name segment y) :
    ∃ (S : Site) (g : Account), S.config = config ∧ S.name = name ∧ S.segment = segment ∧ ¬S.calm ∧
      y.Sound S.rules (fun _ _ _ => True) g := by
  induction hy with
  | opened hc =>
    obtain ⟨S, log, rfl, rfl, rfl, hcalm, -, hinv, -⟩ := Site.exists_of_left hc rfl rfl
    exact ⟨S, _, rfl, rfl, rfl, hcalm, Site.sound_opened hinv⟩
  | step _ h hf ih =>
    obtain ⟨S, g, rfl, rfl, rfl, hcalm, hy⟩ := ih
    obtain ⟨g', hz, -⟩ := Site.sound_of_fits hcalm (.head h (.refl _)) (by simpa using hf) hy
    exact ⟨S, g', rfl, rfl, rfl, hcalm, hz⟩
  | @dropped y _ hi ih =>
    obtain ⟨S, g, rfl, rfl, rfl, hcalm, hy⟩ := ih
    have hinv : S.Inv (y.world g) := hy.inv
    have hrest (i : Nat) : g.Rests i := hy.rest (hi i)
    have hdrop := Site.inv_restarted hcalm hinv hrest
    rw [show Site.idle (y.world g).ghost.log = g from (Account.eq_idle hrest).symm] at hdrop
    refine ⟨S.restarted hinv hcalm, g, rfl, rfl, rfl, hcalm, hdrop, ?_, fun _ => hrest _⟩
    intro i p hp
    rw [show (y.drop S.segment).threads i = none from hi i] at hp
    cases hp

/-- All that was written since the index began to track the segment is accounted for. -/
theorem Pool.BeganAt.exists_site {config : Config} {name : String} {segment start : Nat}
    {y : Pool Tables Reply} (hy : BeganAt config name segment start y) :
    ∃ (S : Site) (g : Account), S.config = config ∧ S.name = name ∧ S.segment = segment ∧
      S.start = start ∧ ¬S.calm ∧ y.Sound S.rules (fun _ _ _ => True) g := by
  obtain ⟨m, es, hm, hidle, htracked, rfl, hes, hf⟩ := hy
  obtain ⟨S, g, rfl, rfl, rfl, hcalm, hs⟩ := hm.exists_site
  have hinv : S.Inv (m.world g) := hs.inv
  have hlength : (m.container.segment S.segment).data.length = Log.size g.log :=
    Site.Inv.length hinv
  have hstart : Log.size g.log = S.start := by
    refine (hinv.coherent.unrecovered ?_).1
    cases hrecovered : (S.scene (m.world g)).state.recovered with
    | none => rfl
    | some n =>
      have htrue : m.state.tracked[S.segment]?.isSome = true :=
        (hinv.coherent.recovered hrecovered).1
      rw [htracked] at htrue
      cases htrue
  obtain ⟨g', hs', -, -⟩ := Site.sound_of_fits hcalm hes hf hs
  exact ⟨S, g', rfl, rfl, rfl, (hlength.trans hstart).symm, hcalm, hs'⟩

end KeyedLog
