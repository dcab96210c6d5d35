import KeyedLog.Index.Access
import KeyedLog.Proofs.Program.LoneThread
import KeyedLog.Walk

/-! Programs that only inquire about a segment: what they come to is decided by its bytes and its
attributes. -/
namespace KeyedLog

open Program

/-- The call asks about a segment, or where it is. -/
def Call.Inquires (name : String) (segment : Nat) : Call → Prop
  | .resolve n => n = name
  | .read id .. | .getAttributes id _ | .length id => id = segment
  | _ => False

variable {σ α β : Type} {name : String} {segment : Nat} {log : List Record} {a : Attributes}

/-- Wherever a segment shows the same, it gives the same answer. -/
theorem Call.Inquires.exists_answer {q : Call} (hq : q.Inquires name segment) (log : List Record)
    (a : Attributes) : ∃ r, ∀ c : Container, c.Shows name segment log a →
      ∃ c', c.perform q = (c', r) ∧ c'.Shows name segment log a := by
  cases q with
  | resolve n =>
    obtain rfl : n = name := hq
    exact ⟨.ok segment, fun c hc => ⟨c, Container.perform_resolve hc.resolve, hc⟩⟩
  | read id offset length =>
    obtain rfl : id = segment := hq
    let shown : Segment :=
      { Segment.ofAttributes "" [] with data := Record.encodeAll recordChecksum log }
    refine ⟨shown.read offset length, fun c hc => ⟨c, ?_, hc⟩⟩
    change (c, (c.existing id).bind (·.read offset length)) = _
    rw [Container.existing_of_resolve hc.resolve]
    change (c, (c.segment id).read offset length) = _
    unfold Segment.read
    rw [hc.data]
    rfl
  | getAttributes id ids =>
    obtain rfl : id = segment := hq
    exact ⟨.ok (ids.map fun i => a[i]?), fun c hc => hc.performs_getAttributes ids⟩
  | length id =>
    obtain rfl : id = segment := hq
    refine ⟨.ok (Log.size log), fun c hc => ⟨c, ?_, hc⟩⟩
    exact congrArg (fun n => (c, Except.ok n)) hc.length
  | create | delete | append | updateAttributes => exact hq.elim

namespace Program

/-- All calls inquire, and whoever runs out of time or gets no answer fails. -/
def Inquires (name : String) (segment : Nat) : Program σ α → Prop
  | .ret _ | .fail _ => True
  | .clock k => k false = .fail .timeout ∧ (k true).Inquires name segment
  | .call q k => q.Inquires name segment ∧ (∀ e, k (.error e) = .fail e) ∧
      ∀ answer, (k (.ok answer)).Inquires name segment
  | .get _ | .set .. | .await .. | .pause .. => False

/-- What a program comes to wherever the segment shows a log and some attributes. -/
def Tells (p : Program σ α) (name : String) (segment : Nat) (log : List Record) (a : Attributes)
    (r : Except TableError α) : Prop :=
  ∀ (c : Container) (s : σ), c.Shows name segment log a →
    ∃ c', p.run true c s = (r, c', s) ∧ c'.Shows name segment log a

theorem tells_pure (b : α) : (pure b : Program σ α).Tells name segment log a (.ok b) :=
  fun c _ hc => ⟨c, rfl, hc⟩

theorem tells_fail (e : TableError) :
    (.fail e : Program σ α).Tells name segment log a (.error e) :=
  fun c _ hc => ⟨c, rfl, hc⟩

theorem Tells.unique {p : Program σ α} {r r' : Except TableError α} {c : Container}
    (h : p.Tells name segment log a r) (h' : p.Tells name segment log a r') (s : σ)
    (hc : c.Shows name segment log a) : r = r' := by
  obtain ⟨d, hd, -⟩ := h c s hc
  obtain ⟨d', hd', -⟩ := h' c s hc
  exact (Prod.mk.inj (hd.symm.trans hd')).1

theorem Tells.bind {p : Program σ α} {f : α → Program σ β} {b : α} {r : Except TableError β}
    (hp : p.Tells name segment log a (.ok b)) (hf : (f b).Tells name segment log a r) :
    (p >>= f).Tells name segment log a r := by
  intro c s hc
  obtain ⟨c', hrun, hc'⟩ := hp c s hc
  obtain ⟨c'', hrun', hc''⟩ := hf c' s hc'
  refine ⟨c'', ?_, hc''⟩
  rw [run_bind, hrun]
  exact hrun'

theorem Tells.bind_error {p : Program σ α} {e : TableError}
    (hp : p.Tells name segment log a (.error e)) (f : α → Program σ β) :
    (p >>= f).Tells name segment log a (.error e) := by
  intro c s hc
  obtain ⟨c', hrun, hc'⟩ := hp c s hc
  refine ⟨c', ?_, hc'⟩
  rw [run_bind, hrun]

theorem Inquires.exists_tells {p : Program σ α} (h : p.Inquires name segment) (log : List Record)
    (a : Attributes) : ∃ r, p.Tells name segment log a r := by
  induction p with
  | ret b => exact ⟨.ok b, fun c s hc => ⟨c, rfl, hc⟩⟩
  | fail e => exact ⟨.error e, fun c s hc => ⟨c, rfl, hc⟩⟩
  | clock k ih => exact ih true h.2
  | call q k ih =>
    obtain ⟨answer, hanswer⟩ := h.1.exists_answer log a
    have hk : ∃ r, (k answer).Tells name segment log a r := by
      cases answer with
      | ok answer => exact ih (.ok answer) (h.2.2 answer)
      | error e => exact ⟨.error e, fun c s hc => ⟨c, by rw [h.2.1 e]; rfl, hc⟩⟩
    obtain ⟨r, hr⟩ := hk
    refine ⟨r, fun c s hc => ?_⟩
    obtain ⟨c', hp, hc'⟩ := hanswer c hc
    unfold run
    rw [hp]
    exact hr c' s hc'
  | get | set | await | pause => exact h.elim

theorem Inquires.bind {p : Program σ α} {f : α → Program σ β} (hp : p.Inquires name segment)
    (hf : ∀ a, (f a).Inquires name segment) : (p >>= f).Inquires name segment := by
  change (p.bind f).Inquires name segment
  induction p with
  | ret a => exact hf a
  | fail e => trivial
  | clock k ih => exact ⟨congrArg (Program.bind · f) hp.1, ih true hp.2⟩
  | call q k ih =>
    exact ⟨hp.1, fun e => congrArg (Program.bind · f) (hp.2.1 e), fun r => ih _ (hp.2.2 r)⟩
  | get | set | await | pause => exact hp.elim

/-- Inquiries do not wait. -/
theorem Inquires.bounded {p : Program σ α} (h : p.Inquires name segment) : p.Bounded := by
  induction p with
  | ret | fail => trivial
  | clock k ih =>
    intro left
    cases left with
    | true => exact ih true h.2
    | false =>
      rw [h.1]
      trivial
  | call q k ih =>
    intro answer
    cases answer with
    | ok answer => exact ih _ (h.2.2 answer)
    | error e =>
      rw [h.2.1 e]
      trivial
  | get | set | await | pause => exact h.elim

theorem inquires_ofExcept (r : Except TableError α) :
    (ofExcept r : Program σ α).Inquires name segment := by
  cases r <;> trivial

theorem inquires_ask {q : Call} (hq : q.Inquires name segment) :
    (ask q : Program σ q.Answer).Inquires name segment :=
  ⟨hq, fun _ => rfl, fun _ => trivial⟩

theorem inquires_request {q : Call} (hq : q.Inquires name segment) :
    (request q : Program σ q.Answer).Inquires name segment := by
  have hclock : (checkTime : Program σ Unit).Inquires name segment := ⟨rfl, trivial⟩
  exact hclock.bind fun _ => inquires_ask hq

theorem inquires_foldlM {f : β → α → Program σ β} (hf : ∀ b a, (f b a).Inquires name segment)
    (l : List α) (b : β) : (l.foldlM f b).Inquires name segment := by
  induction l generalizing b with
  | nil => trivial
  | cons a l ih =>
    rw [List.foldlM_cons]
    exact (hf b a).bind ih

end Program

theorem Walk.inquires_visit (mode : ReadMode) (key : Bytes) (x : Nat) :
    (Walk.visit mode segment key x : Program σ Walk.Answer).Inquires name segment := by
  unfold Walk.visit
  refine (inquires_request (q := .read ..) rfl).bind fun _ => ?_
  refine (inquires_ofExcept _).bind fun h => ?_
  split
  · trivial
  · exact (inquires_request (q := .read ..) rfl).bind fun _ => inquires_ofExcept _

namespace Tables

variable {config : Config}

theorem inquires_attributeOf (id : AttributeId) :
    (attributeOf segment id : Program σ (Option Nat)).Inquires name segment := by
  unfold attributeOf
  exact (inquires_request (q := .getAttributes ..) rfl).bind fun _ => trivial

theorem inquires_rewind (before hops left : Nat) (cur : Option Nat) :
    (rewind segment before hops left cur : Program σ (Option Nat)).Inquires name segment := by
  induction left generalizing hops cur with
  | zero =>
    cases cur with
    | none => trivial
    | some offset =>
      unfold rewind
      split
      · trivial
      · refine (inquires_attributeOf _).bind fun previous => ?_
        split <;> trivial
  | succ left ih =>
    cases cur with
    | none => trivial
    | some offset =>
      unfold rewind
      split
      · trivial
      · refine (inquires_attributeOf _).bind fun previous => ?_
        split
        · trivial
        · exact ih (hops + 1) previous

/-- The links of a range that is to be indexed, and the buckets that they belong to. -/
def rangeLinks (config : Config) (segment start stop : Nat) :
    Program Tables (List AttributeUpdate × List KeyHash) := do
  let data : Bytes ← request (.read segment start (stop - start))
  let entries ← ofExcept (hashRecords config start data)
  let hashes := (entries.map (·.2)).eraseDups
  let persisted : List (Option Nat) ← request (.getAttributes segment (hashes.map .bucket))
  let before ← rewindAll config segment start hashes persisted
  let (after, backpointers) := Links.chain before entries
  return (Links.backpointerUpdates backpointers ++ Links.headUpdates after.toList, hashes)

theorem inquires_rangeLinks (start stop : Nat) :
    (rangeLinks config segment start stop).Inquires name segment := by
  unfold rangeLinks
  refine (inquires_request (q := .read ..) rfl).bind fun data => ?_
  refine (inquires_ofExcept _).bind fun entries => ?_
  refine (inquires_request (q := .getAttributes ..) rfl).bind fun persisted => ?_
  refine Inquires.bind (inquires_foldlM (fun heads e => ?_) _ _) fun before => trivial
  refine (inquires_rewind ..).bind fun head => ?_
  cases head <;> trivial

def persistRange (segment stop : Nat) (links : List AttributeUpdate × List KeyHash) :
    Program Tables Unit := do
  request (.updateAttributes segment (links.1 ++ [.replaceIfGreater .indexOffset stop]))
  Program.modify fun t =>
    { t with cache := links.2.foldl (fun cache hash => cache.erase ⟨segment, hash⟩) t.cache }

/-- A range is indexed by finding its links first, and then persisting all of them in one call. -/
theorem indexRange_eq (start stop : Nat) :
    indexRange config segment start stop =
      rangeLinks config segment start stop >>= persistRange segment stop := by
  have hnext {α β γ : Type} (p : Program Tables α) {f : α → Program Tables β}
      {g : β → Program Tables γ} {h : α → Program Tables γ} (hf : ∀ a, h a = f a >>= g) :
      p >>= h = (p >>= f) >>= g := by
    rw [LawfulMonad.bind_assoc]
    exact congrArg (p >>= ·) (funext hf)
  unfold indexRange rangeLinks
  refine hnext (request (.read segment start (stop - start))) fun data => ?_
  refine hnext (Program.ofExcept (hashRecords config start data)) fun entries => ?_
  refine hnext (request (.getAttributes segment _)) fun persisted => ?_
  exact hnext (rewindAll config segment start _ persisted) fun before => rfl

theorem le_indexOffset_of_range (a : Attributes) (us : List AttributeUpdate) (stop : Nat) :
    stop ≤
      (a.updateAll (us ++ [.replaceIfGreater .indexOffset stop]))[AttributeId.indexOffset]?.getD
        0 := by
  unfold Attributes.updateAll
  rw [List.foldl_append, List.foldl_cons, List.foldl_nil, Attributes.getElem?_update,
    show (AttributeUpdate.replaceIfGreater .indexOffset stop).id = .indexOffset from rfl,
    if_pos rfl, Option.getD_some]
  unfold AttributeUpdate.apply
  split
  · exact Nat.le_max_right _ _
  · exact Nat.le_refl _

end Tables
end KeyedLog
