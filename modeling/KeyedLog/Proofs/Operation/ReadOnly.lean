import KeyedLog.Proofs.Operation.Lookup

/-! Programs that only look: under any rules that let them, they keep whatever a thread counts
on. -/
namespace KeyedLog

/-- The call changes nothing but the count of lookups. -/
def Call.Looks : Call → Prop
  | .resolve _ | .read .. | .getAttributes .. | .length _ => True
  | _ => False

namespace Program

/-- All calls only look, there is no wait, and of the shared state only the cache is changed. -/
def Looks {α : Type} : Program Tables α → Tables → Prop
  | .ret _, _ | .fail _, _ => True
  | .get k, t => (k t).Looks t
  | .set s k, t => (∃ cache, s = { t with cache }) ∧ k.Looks s
  | .await .., _ => False
  | .clock k, _ => ∀ left t, (k left).Looks t
  | .call q k, _ => q.Looks ∧ ∀ r t, (k r).Looks t
  | .pause _ k, _ => ∀ t, k.Looks t

variable {α β : Type} {t : Tables}

theorem Looks.bind {p : Program Tables α} {f : α → Program Tables β} (hp : p.Looks t)
    (hf : ∀ a t, (f a).Looks t) : (p >>= f).Looks t := by
  change (p.bind f).Looks t
  induction p generalizing t with
  | ret a => exact hf a t
  | fail e => trivial
  | get k ih => exact ih t hp
  | set s k ih => exact ⟨hp.1, ih hp.2⟩
  | await b ready k ih => exact hp
  | clock k ih => exact fun left t => ih left (hp left t)
  | call q k ih => exact ⟨hp.1, fun r t => ih r (hp.2 r t)⟩
  | pause n k ih => exact fun t => ih (hp t)

theorem looks_ofExcept (r : Except TableError α) : (ofExcept r : Program Tables α).Looks t := by
  cases r <;> trivial

theorem looks_request {q : Call} (hq : q.Looks) :
    (request q : Program Tables q.Answer).Looks t := by
  refine Looks.bind (fun left t => ?_) fun _ t => ⟨hq, fun r t => looks_ofExcept r⟩
  cases left <;> trivial

end Program

namespace Walk

open Program

theorem looks_visit (mode : ReadMode) (segment : Nat) (key : Bytes) (offset : Nat) (t : Tables) :
    (visit mode segment key offset : Program Tables Answer).Looks t := by
  unfold visit
  refine (looks_request (q := .read ..) trivial).bind fun _ t => ?_
  refine (looks_ofExcept _).bind fun h t => ?_
  split
  · trivial
  · exact (looks_request (q := .read ..) trivial).bind fun _ t => looks_ofExcept _

end Walk

namespace Tables

open Program

variable {t : Tables} {segment ref generation : Nat}

theorem settleHeads_cache (m : Heads) (l : List (KeyHash × Option Nat)) :
    ∃ cache, (settleHeads segment ref generation t m l).1 = { t with cache } := by
  induction l generalizing t m with
  | nil => exact ⟨t.cache, rfl⟩
  | cons e l ih =>
    obtain ⟨h, p⟩ := e
    have hrest (m : Heads) : ∃ cache, (settleHeads segment ref generation
        (settleHead t segment ref generation h p).1 m l).1 = { t with cache } := by
      obtain ⟨cache, hcache⟩ := @ih (settleHead t segment ref generation h p).1 m
      rw [hcache]
      rcases @settleHead_fst t segment ref generation h p with ht | ⟨y, -, -, ht⟩
      · exact ⟨cache, by rw [ht]⟩
      · exact ⟨cache, by rw [ht]⟩
    rw [settleHeads_cons]
    exact hrest _

theorem looks_headsWith (hashes : List KeyHash) : (headsWith segment ref hashes).Looks t := by
  unfold headsWith
  change Looks (ite _ _ _) t
  split
  · trivial
  · refine (looks_request (q := .getAttributes ..) trivial).bind fun values t => ?_
    exact ⟨settleHeads_cache _ _, trivial⟩

theorem looks_attributeOf (id : AttributeId) : (attributeOf segment id).Looks t := by
  unfold attributeOf
  exact (looks_request (q := .getAttributes ..) trivial).bind fun _ t => trivial

end Tables

namespace Site

variable {S : Site} {c : Container}

/-- Whoever only looks leaves the segment as it is. -/
theorem unread_of_looks {q : Call} (hc : c.resolve S.name = .ok S.segment) (hq : q.Looks) :
    S.Unread c (c.perform q).1 := by
  cases q with
  | resolve | read | length => exact .refl c
  | getAttributes id ids =>
    change S.Unread c (c.settle (c.getAttributes id ids)).1
    unfold Container.getAttributes
    cases c.existing id with
    | error e => exact .refl c
    | ok s =>
      have hreads (f : Segment → Segment) (hf : f = fun s => { s with attributeReads :=
          s.attributeReads + 1 }) : S.Unread c (c.modify id f) := by
        refine ⟨Container.resolve_modify f fun _ => by rw [hf]; rfl, ?_, ?_⟩
        all_goals
          by_cases hid : id = S.segment
          · rw [hid, Container.segment_modify f (Container.live_of_resolve hc).1, hf]
          · rw [Container.segment_modify_of_ne f hid]
      exact hreads _ rfl
  | create | delete | append | updateAttributes => exact hq.elim

theorem unread_of_serve {q : Call} (hc : c.resolve S.name = .ok S.segment) (hq : q.Looks)
    (fate : Fate) : S.Unread c (c.serve q fate).1 := by
  cases fate with
  | served | lost => exact unread_of_looks hc hq
  | refused => exact .refl c

end Site

namespace Rules

open Program

variable {γ α β : Type} {R : Rules Tables γ} {i : Nat} {Q : World Tables γ → Prop}

theorem obeys_checkOpen {w : World Tables γ} (hw : Q w) :
    Tables.checkOpen.Obeys R i (fun _ => Q) (fun _ => Q) w := by
  unfold Tables.checkOpen
  rw [obeys_bind, obeys_read]
  split
  · exact hw
  · exact hw

theorem obeys_checkIndex {w : World Tables γ} (hw : Q w) :
    Tables.checkIndex.Obeys R i (fun _ => Q) (fun _ => Q) w := by
  unfold Tables.checkIndex
  rw [obeys_bind, obeys_read]
  split
  · exact hw
  · exact hw

/-- What a thread that only looks counts on. Neither the others nor the thread itself undo it. -/
structure Steady (R : Rules Tables γ) (i : Nat) (Q : World Tables γ → Prop) : Prop where
  inv : ∀ {w}, Q w → R.inv w
  tidy : ∀ {w}, Q w → R.tidy i w
  go : ∀ {w v}, Q w → R.inv v → R.rely i w v → Q v
  /-- Looking goes by the rules. -/
  look : ∀ {w q}, Q w → q.Looks → ∀ fate,
    Q ⟨(w.container.serve q fate).1, w.state, w.ghost⟩ ∧
      R.guar i (some (q, fate)) w ⟨(w.container.serve q fate).1, w.state, w.ghost⟩
  /-- Cached heads may be anything. -/
  cached : ∀ {w}, Q w → ∀ cache, Q ⟨w.container, { w.state with cache }, w.ghost⟩ ∧
    R.guar i none w ⟨w.container, { w.state with cache }, w.ghost⟩

namespace Steady

variable (hR : R.Steady i Q) {w : World Tables γ} {E : TableError → World Tables γ → Prop}
include hR

/-- A program that only looks leaves things as they are. -/
theorem looks {p : Program Tables α} (hw : Q w) (hp : p.Looks w.state) :
    p.Obeys R i (fun _ => Q) (fun _ => Q) w := by
  induction p generalizing w with
  | ret | fail => exact hw
  | get k ih => exact ih w.state hw hp
  | set s k ih =>
    obtain ⟨⟨cache, rfl⟩, hk⟩ := hp
    obtain ⟨hv, hg⟩ := hR.cached hw cache
    exact ⟨w.ghost, ⟨hR.inv hv, hg⟩, ih hv hk⟩
  | await b ready k ih => exact hp.elim
  | clock k ih =>
    refine ⟨hR.tidy hw, fun v hv hwv => ?_⟩
    have hv := hR.go hw hv hwv
    exact ⟨ih true hv (hp true _), fun _ => ih false hv (hp false _)⟩
  | call q k ih =>
    refine ⟨hR.tidy hw, fun v hv hwv fate _ => ⟨v.ghost, ?_⟩⟩
    obtain ⟨hv, hg⟩ := hR.look (hR.go hw hv hwv) hp.1 fate
    exact ⟨⟨hR.inv hv, hg⟩, fun u hu hvu => ih _ (hR.go hv hu hvu) (hp.2 _ _)⟩
  | pause n k ih => exact ⟨hR.tidy hw, fun v hv hwv => ih (hR.go hw hv hwv) (hp _)⟩

/-- A call that only looks is answered, or it fails. -/
theorem ask {q : Call} (hq : q.Looks) {K : q.Answer → World Tables γ → Prop} (hw : Q w)
    (hK : ∀ v c answer, Q v → v.container.perform q = (c, .ok answer) →
      ∀ u, Q u → R.rely i ⟨c, v.state, v.ghost⟩ u → K answer u)
    (hE : ∀ e u, Q u → E e u) : (Program.ask q).Obeys R i K E w := by
  refine (obeys_ask q K).2 ⟨hR.tidy hw, fun v hv hwv fate _ => ?_⟩
  have hv := hR.go hw hv hwv
  obtain ⟨hc, hg⟩ := hR.look hv hq fate
  refine ⟨v.ghost, ⟨hR.inv hc, hg⟩, fun u hu hcu => ?_⟩
  have hQu := hR.go hc hu hcu
  cases fate with
  | served =>
    cases hp : v.container.perform q with
    | mk c r =>
      have hs : v.container.serve q .served = (c, r) := hp
      rw [hs] at hcu ⊢
      cases r with
      | ok answer => exact hK v c answer hv hp u hQu hcu
      | error e => exact hE e u hQu
  | refused e | lost e => exact hE e u hQu

theorem request {q : Call} (hq : q.Looks) {K : q.Answer → World Tables γ → Prop} (hw : Q w)
    (hK : ∀ v c answer, Q v → v.container.perform q = (c, .ok answer) →
      ∀ u, Q u → R.rely i ⟨c, v.state, v.ghost⟩ u → K answer u)
    (hE : ∀ e u, Q u → E e u) : (Program.request q).Obeys R i K E w := by
  refine (obeys_bind checkTime (fun _ => Program.ask q) K w).2 ((obeys_checkTime _).2 ?_)
  refine ⟨hR.tidy hw, fun v hv hwv => ?_⟩
  have hv := hR.go hw hv hwv
  exact ⟨hR.ask hq hv hK hE, fun _ => hE _ v hv⟩

theorem resolve {name : String} {segment : Nat}
    (hname : ∀ {w}, Q w → w.container.resolve name = .ok segment) (hw : Q w) :
    (Program.request (.resolve name) : Program Tables Nat).Obeys R i
      (fun n v => n = segment ∧ Q v) (fun _ => Q) w := by
  refine hR.request (q := .resolve name) trivial hw (fun v c answer hv hp u hu _ => ⟨?_, hu⟩)
    fun _ _ hu => hu
  rw [Container.perform_resolve (hname hv)] at hp
  exact (Except.ok.inj (Prod.mk.inj hp).2).symm

section Lookup

variable {config : Config} {segment : Nat} {mode : ReadMode} {key : Bytes}
  (haccess : ∀ {w}, Q w →
    (Tables.access config segment).Obeys R i (fun _ => Q) (fun _ => Q) w)
include haccess

theorem backpointer (hw : Q w) (x : Nat) :
    (Tables.backpointer config segment x).Obeys R i (fun _ => Q) (fun _ => Q) w := by
  unfold Tables.backpointer
  refine (obeys_bind _ _ _ _).2 ((haccess hw).mono (fun ref v hv => ?_) fun e v hv => hv)
  rw [obeys_bind, Site.obeys_look]
  split
  · exact hv
  · exact hR.looks hv (Tables.looks_attributeOf _)

theorem findFrom (hw : Q w) (left hops x : Nat) :
    (Walk.findFrom mode segment (Tables.backpointer config segment) key left hops x).Obeys R i
      (fun _ => Q) (fun _ => Q) w := by
  induction left generalizing hops x w with
  | zero =>
    unfold Walk.findFrom
    refine (obeys_bind _ _ _ _).2 ?_
    refine (hR.looks hw (Walk.looks_visit mode segment key x w.state)).mono (fun a v hv => ?_)
      fun _ _ h => h
    cases a with
    | found | removed | other => exact hv
  | succ left ih =>
    unfold Walk.findFrom
    refine (obeys_bind _ _ _ _).2 ?_
    refine (hR.looks hw (Walk.looks_visit mode segment key x w.state)).mono (fun a v hv => ?_)
      fun _ _ h => h
    cases a with
    | found | removed => exact hv
    | other =>
      refine (obeys_bind _ _ _ _).2 ((hR.backpointer haccess hv x).mono (fun p u hu => ?_)
        fun _ _ h => h)
      cases p with
      | none => exact hu
      | some y =>
        dsimp only
        split
        · exact ih hu (hops + 1) y
        · exact hu

end Lookup

/-- Whoever looks up keys accesses the segment first, and then only looks. -/
theorem lookup {config : Config} {segment : Nat} {name : String} {mode : ReadMode}
    {P F : World Tables γ → Prop} (hP : ∀ {w}, P w → F w) (hQ : ∀ {w}, Q w → F w)
    (hname : ∀ {w}, P w → (Program.request (.resolve name) : Program Tables Nat).Obeys R i
      (fun n v => n = segment ∧ P v) (fun _ => P) w)
    (hfirst : ∀ {w}, P w →
      (Tables.access config segment).Obeys R i (fun _ => Q) (fun _ => F) w)
    (haccess : ∀ {w}, Q w →
      (Tables.access config segment).Obeys R i (fun _ => Q) (fun _ => Q) w)
    (hw : P w) (keys : List Bytes) :
    (Tables.lookup config mode name keys).Obeys R i (fun _ => F) (fun _ => F) w := by
  unfold Tables.lookup
  refine (obeys_bind _ _ _ _).2 ((obeys_checkOpen hw).mono (fun _ w hw => ?_) fun _ _ h => hP h)
  split
  · exact hP hw
  refine (obeys_bind _ _ _ _).2 ?_
  cases keys.mapM config.hasher.hash with
  | error e => exact hP hw
  | ok hashes =>
    rw [obeys_ofExcept_ok]
    refine (obeys_bind (Program.request (.resolve name)) _ _ _).2 ?_
    refine (hname hw).mono ?_ fun _ _ h => hP h
    rintro _ v ⟨rfl, hv⟩
    unfold Tables.heads
    refine (obeys_bind _ _ _ _).2 ((obeys_bind _ _ _ _).2 ?_)
    refine (hfirst hv).mono (fun ref u hu => ?_) fun _ _ h => h
    refine (hR.looks hu (Tables.looks_headsWith _)).mono (fun heads t ht => ?_) fun _ _ h => hQ h
    refine (obeys_mapM (P := Q) (Q := fun _ _ => True) (E := fun _ => Q) ?_ ht).mono
      (fun _ _ h => hQ h.1) fun _ _ h => hQ h
    rintro ⟨key, h⟩ - c hc
    dsimp only
    split
    · exact (hR.findFrom haccess hc _ 0 _).mono (fun _ _ h => ⟨h, trivial⟩) fun _ _ h => h
    · exact ⟨hc, trivial⟩

end Steady

end Rules
end KeyedLog
