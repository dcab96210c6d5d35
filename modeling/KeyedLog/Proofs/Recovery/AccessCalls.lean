import KeyedLog.Proofs.Alone.CatchUp
import KeyedLog.Proofs.Recovery.FailedAttempts
import KeyedLog.Proofs.Walk.VisitAnywhere

/-! What there is to learn of a segment, and which calls it takes. Whoever inquires learns it, or
fails after some of the calls. -/
namespace KeyedLog

open Program Tables
open Outlook (Near)

namespace Program

section Learns

variable {σ α : Type} {name : String} {segment : Nat} {log : List Record} {a : Attributes}

/-- What a program asks for, and what it comes to, wherever a segment shows a log and some
attributes. -/
def Learns (p : Program σ α) (name : String) (segment : Nat) (log : List Record) (a : Attributes)
    (ps : List Call) (r : Except TableError α) : Prop :=
  ∀ (c : Container) (s : σ), c.Shows name segment log a →
    ∃ c', p.Runs c s ps r c' s ∧ c'.Shows name segment log a

theorem Learns.tells {p : Program σ α} {ps : List Call} {r : Except TableError α}
    (h : p.Learns name segment log a ps r) : p.Tells name segment log a r := by
  intro c s hc
  obtain ⟨c', hruns, hc'⟩ := h c s hc
  exact ⟨c', hruns.run, hc'⟩

theorem Inquires.exists_learns {p : Program σ α} (h : p.Inquires name segment) (log : List Record)
    (a : Attributes) : ∃ ps r, p.Learns name segment log a ps r := by
  induction p with
  | ret b => exact ⟨[], .ok b, fun c s hc => ⟨c, ⟨rfl, rfl⟩, hc⟩⟩
  | fail e => exact ⟨[], .error e, fun c s hc => ⟨c, ⟨rfl, rfl⟩, hc⟩⟩
  | clock k ih =>
    obtain ⟨ps, r, hk⟩ := ih true h.2
    refine ⟨ps, r, fun c s hc => ?_⟩
    obtain ⟨c', hruns, hc'⟩ := hk c s hc
    exact ⟨c', ⟨hruns.run, hruns.calls⟩, hc'⟩
  | call q k ih =>
    obtain ⟨answer, hanswer⟩ := h.1.exists_answer log a
    have hk : ∃ ps r, (k answer).Learns name segment log a ps r := by
      cases answer with
      | ok answer => exact ih (.ok answer) (h.2.2 answer)
      | error e =>
        rw [h.2.1 e]
        exact ⟨[], .error e, fun c s hc => ⟨c, ⟨rfl, rfl⟩, hc⟩⟩
    obtain ⟨ps, r, hr⟩ := hk
    refine ⟨q :: ps, r, fun c s hc => ?_⟩
    obtain ⟨c', hp, hc'⟩ := hanswer c hc
    obtain ⟨c'', hruns, hc''⟩ := hr c' s hc'
    refine ⟨c'', ⟨?_, ?_⟩, hc''⟩
    · unfold run
      rw [hp]
      exact hruns.run
    · unfold calls
      rw [hp]
      exact congrArg (q :: ·) hruns.calls
  | get | set | await | pause => exact h.elim

/-- After a call there is the rest to be learned. -/
theorem Learns.of_call {q : Call} {k : Except TableError q.Answer → Program σ α}
    {answer : Except TableError q.Answer} {ps : List Call} {r : Except TableError α} {c : Container}
    (h : (Program.call q k).Learns name segment log a ps r) (hk : (k answer).Inquires name segment)
    (hanswer : ∀ c : Container, c.Shows name segment log a →
      ∃ c', c.perform q = (c', answer) ∧ c'.Shows name segment log a)
    (s : σ) (hc : c.Shows name segment log a) :
    ∃ ps', ps = q :: ps' ∧ (k answer).Learns name segment log a ps' r := by
  obtain ⟨ps', r', hrest⟩ := hk.exists_learns log a
  obtain ⟨c', hperform, hc'⟩ := hanswer c hc
  obtain ⟨d, hruns, -⟩ := h c s hc
  obtain ⟨d', hruns', -⟩ := hrest c' s hc'
  have hcalls := hruns.calls
  have hrun := hruns.run
  unfold calls at hcalls
  unfold run at hrun
  rw [hperform] at hcalls hrun
  obtain rfl : ps = q :: ps' := hcalls.symm.trans (congrArg (q :: ·) hruns'.calls)
  obtain rfl : r' = r := congrArg Prod.fst (hruns'.run.symm.trans hrun)
  exact ⟨ps', rfl, hrest⟩

end Learns

section Tries

variable {α : Type} {settled : World Tables Unit → Prop}
  {K : α → List Call → World Tables Unit → Prop}
  {E : TableError → List Call → World Tables Unit → Prop} {qs ps : List Call}
  {w : World Tables Unit} {name : String} {segment ref : Nat} {log : List Record} {a : Attributes}
  {s : SegmentState}

/-- Whoever inquires learns what there is to learn, or fails after some of the calls. -/
theorem tries_inquires {p : Program Tables α} {r : Except TableError α}
    (hp : p.Inquires name segment) (hl : p.Learns name segment log a ps r)
    (h : Stands name segment ref log a s w)
    (hK : ∀ b v, Stands name segment ref log a s v → r = .ok b → K b (qs ++ ps) v)
    (hE : ∀ e ps' v, Stands name segment ref log a s v → ps' <+: ps → E e (qs ++ ps') v) :
    p.Tries settled K E qs w := by
  have hempty {qs ps : List Call} {e : TableError} {v : World Tables Unit}
      (hE : ∀ e ps' v, Stands name segment ref log a s v → ps' <+: ps → E e (qs ++ ps') v)
      (hv : Stands name segment ref log a s v) : E e qs v := by
    have hnone := hE e [] v hv List.nil_prefix
    rwa [List.append_nil] at hnone
  induction p generalizing qs ps r w with
  | ret b =>
    obtain ⟨c, hruns, -⟩ := hl w.container w.state h.shows
    obtain rfl : ps = [] := hruns.calls.symm
    have hr : r = .ok b := (congrArg Prod.fst hruns.run).symm
    have hb := hK b w h hr
    rwa [List.append_nil] at hb
  | fail e => exact hempty hE h
  | clock k ih =>
    intro v hv _ left
    have hv := hv.stands h
    cases left with
    | true => exact ih true hp.2 (fun c t hc => by
        obtain ⟨c', hruns, hc'⟩ := hl c t hc
        exact ⟨c', ⟨hruns.run, hruns.calls⟩, hc'⟩) hv hK hE
    | false =>
      rw [hp.1]
      exact hempty hE hv
  | call q k ih =>
    intro v hv _ fate hfate u hu
    have hv := hv.stands h
    obtain ⟨answer, hanswer⟩ := hp.1.exists_answer log a
    have hk : (k answer).Inquires name segment := by
      cases answer with
      | ok answer => exact hp.2.2 answer
      | error e =>
        rw [hp.2.1 e]
        trivial
    obtain ⟨ps', rfl, hrest⟩ := hl.of_call hk hanswer v.state hv.shows
    obtain ⟨c, hperform, hc⟩ := hanswer v.container hv.shows
    have hshows : (v.container.serve q fate).1.Shows name segment log a := by
      cases fate with
      | served | lost =>
        change (v.container.perform q).1.Shows _ _ _ _
        rw [hperform]
        exact hc
      | refused => exact hv.shows
    have hstands : Stands name segment ref log a s u :=
      hu.stands ⟨hshows, hv.keeps, hv.opened, hv.indexOpened⟩
    -- A failure is passed on, whether the call took effect or not.
    have hfails (e : TableError) : (k (.error e)).Tries settled K E (qs ++ [q]) u := by
      rw [hp.2.1 e]
      exact hE e [q] u hstands ⟨ps', rfl⟩
    cases fate with
    | refused e => exact hfails e
    | lost e => exact hfails e
    | served =>
      change (k (v.container.perform q).2).Tries _ _ _ _ u
      rw [hperform]
      apply ih _ hk hrest hstands
      · intro b x hx hr
        have hb := hK b x hx hr
        rwa [List.append_cons] at hb
      · intro e ps x hx hpre
        have he := hE e (q :: ps) x hx ((List.cons_prefix_cons).2 ⟨rfl, hpre⟩)
        rwa [List.append_cons] at he
  | get | set | await | pause => exact hp.elim

/-- A call that is made takes effect or not, and either may be reported as a failure. -/
theorem tries_request {q : Call} {K : q.Answer → List Call → World Tables Unit → Prop}
    {a' : Attributes} (h : Stands name segment ref log a s w)
    (hp : ∀ c : Container, c.Shows name segment log a → ∃ c' answer,
      c.perform q = (c', .ok answer) ∧ c'.Shows name segment log a')
    (hK : ∀ answer v, Stands name segment ref log a' s v → K answer (qs ++ [q]) v)
    (hE : ∀ e ps v, Stands name segment ref log a s v ∨ Stands name segment ref log a' s v →
      ps <+: [q] → E e (qs ++ ps) v) :
    (request q : Program Tables q.Answer).Tries settled K E qs w := by
  refine (tries_bind checkTime (fun _ => ask q) K qs w).2 fun v hv _ left => ?_
  have hv := hv.stands h
  cases left with
  | false =>
    have hnone := hE .timeout [] v (.inl hv) List.nil_prefix
    rwa [List.append_nil] at hnone
  | true =>
    intro u hu _ fate hfate x hx
    have hu := hu.stands hv
    obtain ⟨c, answer, hperform, hc⟩ := hp u.container hu.shows
    have hafter (hserve : (u.container.serve q fate).1 = c) :
        Stands name segment ref log a' s x := by
      rw [hserve] at hx
      exact hx.stands ⟨hc, hu.keeps, hu.opened, hu.indexOpened⟩
    have hserve := congrArg Prod.fst hperform
    cases fate with
    | served =>
      have hx := hafter hserve
      have hs : u.container.serve q .served = (c, .ok answer) := hperform
      rw [hs]
      exact hK answer x hx
    | refused e => exact hE e [q] x (.inl (hx.stands hu)) List.prefix_rfl
    | lost e => exact hE e [q] x (.inr (hafter hserve)) List.prefix_rfl

end Tries
end Program

namespace Tables

variable {config : Config} {name : String} {segment : Nat} {log rest : List Record}
  {a : Attributes} {c : Container}

theorem learns_attributeOf {σ : Type} (id : AttributeId) :
    (attributeOf segment id : Program σ (Option Nat)).Learns name segment log a
      [.getAttributes segment [id]] (.ok a[id]?) := by
  intro c s hc
  obtain ⟨c', hp, hc'⟩ := hc.performs_getAttributes [id]
  exact ⟨c', (runs_request hp).bind_nil (runs_pure _), hc'⟩

theorem learns_length {σ : Type} :
    (ask (.length segment) : Program σ Nat).Learns name segment log a [.length segment]
      (.ok (Log.size log)) := by
  intro c s hc
  refine ⟨c, ⟨?_, rfl⟩, hc⟩
  change (ofExcept (.ok (c.segment segment).data.length) : Program σ Nat).run true c s = _
  rw [hc.length]
  rfl

theorem runs_rewind {σ : Type} {s : σ} {before hops left : Nat} {cur : Option Nat}
    (hcur : ∀ x, cur = some x → x < before) :
    (rewind segment before hops left cur).Runs c s [] (.ok cur) c s := by
  cases cur with
  | none =>
    unfold rewind
    exact runs_pure none
  | some x =>
    unfold rewind
    rw [if_pos (hcur x rfl)]
    exact runs_pure (some x)

theorem runs_rewindAll {t : Tables} {before : Nat} {hashes : List KeyHash}
    {value : KeyHash → Option Nat}
    (hvalue : ∀ h ∈ hashes, ∀ x, value h = some x → x < before) :
    (rewindAll config segment before hashes (hashes.map value)).Runs c t []
      (.ok (Heads.collect value ∅ hashes)) c t := by
  have hfold : ∀ (hs : List KeyHash) (m : Heads),
      (∀ h ∈ hs, ∀ x, value h = some x → x < before) →
      ((hs.zip (hs.map value)).foldlM (Site.rewindStep config segment before) m).Runs c t []
        (.ok (Heads.collect value m hs)) c t := by
    intro hs
    induction hs with
    | nil => exact fun m _ => runs_pure m
    | cons h hs ih =>
      intro m hvalue
      rw [List.map_cons, List.zip_cons_cons, List.foldlM_cons]
      have hrest (m' : Heads) := ih m' fun g hg => hvalue g (by simp [hg])
      have hrewind : (rewind segment before 0 config.maxChainLength (value h) :
          Program Tables (Option Nat)).Runs c t [] (.ok (value h)) c t :=
        runs_rewind (hvalue h (by simp))
      unfold Heads.collect
      rw [List.foldl_cons]
      cases hv : value h with
      | none =>
        rw [hv] at hrewind
        have hstep : (Site.rewindStep config segment before m (h, none)).Runs c t [] (.ok m) c t :=
          hrewind.nil_bind (runs_pure m)
        exact hstep.nil_bind (hrest m)
      | some y =>
        rw [hv] at hrewind
        have hstep : (Site.rewindStep config segment before m (h, some y)).Runs c t []
            (.ok (m.insert h y)) c t := hrewind.nil_bind (runs_pure _)
        exact hstep.nil_bind (hrest (m.insert h y))
  exact hfold hashes ∅ hvalue

/-- To find the links of a range is to read it and look up the heads of its buckets. Then these are
to be taken back to where the range starts. -/
theorem runs_rangeLinks (hrest : Log.Wellformed config.hasher rest)
    (hc : c.Shows name segment (log ++ rest) a) (t : Tables) :
    let entries := Log.hashed config.hasher (Log.size log) rest
    let hashes := (entries.map (·.2)).eraseDups
    let found (before : Heads) : Program Tables (List AttributeUpdate × List KeyHash) :=
      let chain := Links.chain before entries
      pure (Links.backpointerUpdates chain.2 ++ Links.headUpdates chain.1.toList, hashes)
    ∃ c', c'.Shows name segment (log ++ rest) a ∧ ∀ ps r d u,
      (rewindAll config segment (Log.size log) hashes (hashes.map fun h => a[AttributeId.bucket h]?)
        >>= found).Runs c' t ps r d u →
      (rangeLinks config segment (Log.size log) (Log.size (log ++ rest))).Runs c t
        (.read segment (Log.size log) (Log.size rest) ::
          .getAttributes segment (hashes.map .bucket) :: ps) r d u := by
  intro entries hashes found
  have hlength : Log.size (log ++ rest) - Log.size log = Log.size rest := by
    rw [Log.size_append]
    omega
  obtain ⟨c', hp, hc'⟩ := hc.performs_getAttributes (hashes.map .bucket)
  rw [List.map_map] at hp
  refine ⟨c', hc', fun ps r d u hruns => ?_⟩
  unfold rangeLinks
  rw [hlength]
  refine (runs_request (hc.performs_read List.prefix_rfl rfl)).bind ?_
  rw [Log.hashRecords_encodeAll config _ hrest]
  refine (runs_ofExcept (.ok _)).nil_bind ?_
  exact (runs_request hp).bind hruns

/-- The links of records behind the index offset are found in two calls, if those before it are
linked. -/
theorem exists_learns_rangeLinks (ha : Log.LinkMap config.hasher log a)
    (hrest : Log.Wellformed config.hasher rest) :
    ∃ (hashes : List KeyHash) (links : List AttributeUpdate),
      (rangeLinks config segment (Log.size log) (Log.size (log ++ rest))).Learns name segment
        (log ++ rest) a [.read segment (Log.size log) (Log.size rest),
          .getAttributes segment (hashes.map .bucket)] (.ok (links, hashes)) := by
  generalize hhashes :
    ((Log.hashed config.hasher (Log.size log) rest).map (·.2)).eraseDups = hashes
  have hvalue : ∀ h ∈ hashes, ∀ x, a[AttributeId.bucket h]? = some x → x < Log.size log := by
    intro h hh x hx
    rw [← hhashes, List.mem_eraseDups] at hh
    obtain ⟨⟨y, g⟩, hy, rfl⟩ := List.mem_map.1 hh
    have hlast := ha.head_lastBefore (Attributes.JustLinks.mem_hashed_append.1 hy).1.proper
    rw [show a[AttributeId.bucket g]? = some x from hx] at hlast
    exact hlast.lt
  let before := Heads.collect (fun h => a[AttributeId.bucket h]?) ∅ hashes
  let chain := Links.chain before (Log.hashed config.hasher (Log.size log) rest)
  refine ⟨hashes, Links.backpointerUpdates chain.2 ++ Links.headUpdates chain.1.toList,
    fun c t hc => ?_⟩
  obtain ⟨c', hc', hruns⟩ := runs_rangeLinks hrest hc t
  rw [hhashes] at hruns
  exact ⟨c', hruns _ _ _ _ ((runs_rewindAll hvalue).nil_bind (runs_pure _)), hc'⟩

end Tables
end KeyedLog
