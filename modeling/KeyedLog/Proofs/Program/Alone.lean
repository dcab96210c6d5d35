import KeyedLog.Program
import KeyedLog.Proofs.Log.Basic
import KeyedLog.Proofs.Program.Container

/-! Programs that run alone and come to an end: what each of their parts leaves to the next. -/
namespace KeyedLog

namespace Program

variable {σ α β : Type}

/-- Run alone with time left, the program succeeds, and so turns out what it answers and leaves. -/
def Succeeds (p : Program σ α) (K : α → Container → σ → Prop) (c : Container) (s : σ) : Prop :=
  ∃ a c' s', p.run true c s = (.ok a, c', s') ∧ K a c' s'

variable {K : β → Container → σ → Prop} {c : Container} {s : σ}

theorem run_bind (p : Program σ α) (f : α → Program σ β) (hasTime : Bool) (c : Container) (s : σ) :
    (p >>= f).run hasTime c s =
      match p.run hasTime c s with
      | (.ok a, c', s') => (f a).run hasTime c' s'
      | (.error e, c', s') => (.error e, c', s') := by
  change (p.bind f).run hasTime c s = _
  induction p generalizing c s with
  | ret | fail => rfl
  | get k ih => exact ih s c s
  | set t k ih => exact ih c t
  | await b ready k ih => exact ih (ready s) c s
  | clock k ih => exact ih hasTime c s
  | call q k ih => exact ih (c.perform q).2 (c.perform q).1 s
  | pause n k ih => exact ih c s

theorem run_attempt (p : Program σ α) (hasTime : Bool) (c : Container) (s : σ) :
    p.attempt.run hasTime c s = (.ok (p.run hasTime c s).1, (p.run hasTime c s).2) := by
  induction p generalizing c s with
  | ret | fail => rfl
  | get k ih => exact ih s c s
  | set t k ih => exact ih c t
  | await b ready k ih => exact ih (ready s) c s
  | clock k ih => exact ih hasTime c s
  | call q k ih => exact ih (c.perform q).2 (c.perform q).1 s
  | pause n k ih => exact ih c s

theorem succeeds_bind {p : Program σ α} {f : α → Program σ β} :
    (p >>= f).Succeeds K c s ↔ p.Succeeds (fun a c s => (f a).Succeeds K c s) c s := by
  unfold Succeeds
  rw [run_bind]
  cases p.run true c s with
  | mk r cs =>
    cases r with
    | error e =>
      constructor
      · rintro ⟨a, c', s', h, -⟩
        cases h
      · rintro ⟨a, c', s', h, -⟩
        cases h
    | ok a =>
      constructor
      · intro h
        exact ⟨a, _, _, rfl, h⟩
      · rintro ⟨a', c', s', h, hk⟩
        cases h
        exact hk

theorem Succeeds.mono {p : Program σ α} {J J' : α → Container → σ → Prop}
    (h : p.Succeeds J c s) (hJ : ∀ a c s, J a c s → J' a c s) : p.Succeeds J' c s := by
  obtain ⟨a, c', s', hrun, ha⟩ := h
  exact ⟨a, c', s', hrun, hJ a c' s' ha⟩

@[simp] theorem succeeds_pure (b : β) : (pure b : Program σ β).Succeeds K c s ↔ K b c s := by
  constructor
  · rintro ⟨b', c', s', h, hk⟩
    cases h
    exact hk
  · intro h
    exact ⟨b, c, s, rfl, h⟩

@[simp] theorem succeeds_ofExcept_ok (b : β) :
    (ofExcept (.ok b) : Program σ β).Succeeds K c s ↔ K b c s := succeeds_pure b

@[simp] theorem succeeds_map (p : Program σ α) (f : α → β) :
    (f <$> p).Succeeds K c s ↔ p.Succeeds (fun a => K (f a)) c s := by
  refine succeeds_bind.trans ?_
  change p.Succeeds (fun a c s => (pure (f a) : Program σ β).Succeeds K c s) c s ↔ _
  simp only [succeeds_pure]

theorem succeeds_read_bind {f : σ → Program σ β} :
    (read >>= f).Succeeds K c s ↔ (f s).Succeeds K c s := Iff.rfl

theorem succeeds_modify {J : Unit → Container → σ → Prop} (f : σ → σ) :
    (modify f).Succeeds J c s ↔ J () c (f s) := succeeds_pure (s := f s) ()

theorem succeeds_checkTime {J : Unit → Container → σ → Prop} :
    (checkTime : Program σ Unit).Succeeds J c s ↔ J () c s := succeeds_pure ()

theorem succeeds_waitUntil {J : Unit → Container → σ → Prop} {ready : σ → Bool}
    (hr : ready s = true) (hJ : J () c s) : (waitUntil ready).Succeeds J c s := by
  refine ⟨(), c, s, ?_, hJ⟩
  change (if ready s = true then (ret () : Program σ Unit) else .fail .timeout).run true c s = _
  rw [if_pos hr]
  rfl

theorem succeeds_waitForever {J : Unit → Container → σ → Prop} {ready : σ → Bool}
    (hr : ready s = true) (hJ : J () c s) : (waitForever ready).Succeeds J c s :=
  succeeds_waitUntil hr hJ

theorem succeeds_ask {q : Call} {J : q.Answer → Container → σ → Prop} {c' : Container}
    {answer : q.Answer} (hp : c.perform q = (c', .ok answer)) (hJ : J answer c' s) :
    (ask q).Succeeds J c s := by
  refine ⟨answer, c', s, ?_, hJ⟩
  change (ofExcept (c.perform q).2 : Program σ q.Answer).run true (c.perform q).1 s = _
  rw [hp]
  rfl

theorem succeeds_request {q : Call} {J : q.Answer → Container → σ → Prop} {c' : Container}
    {answer : q.Answer} (hp : c.perform q = (c', .ok answer)) (hJ : J answer c' s) :
    (request q).Succeeds J c s :=
  succeeds_bind.2 (succeeds_checkTime.2 (succeeds_ask hp hJ))

theorem succeeds_attempt {p : Program σ α} {J : Except TableError α → Container → σ → Prop}
    (h : p.Succeeds (fun a => J (.ok a)) c s) : p.attempt.Succeeds J c s := by
  obtain ⟨a, c', s', hrun, ha⟩ := h
  exact ⟨.ok a, c', s', by rw [run_attempt, hrun], ha⟩

theorem succeeds_ensuring {p : Program σ β} {last : Program σ Unit}
    (h : p.Succeeds (fun b c s => last.Succeeds (fun _ => K b) c s) c s) :
    (p.ensuring last).Succeeds K c s := by
  refine succeeds_bind.2 (succeeds_attempt (h.mono fun b c s hb => ?_))
  exact succeeds_bind.2 (hb.mono fun _ _ _ hk => (succeeds_ofExcept_ok b).2 hk)

end Program

/-- The container has a table of a name, whose segment holds some bytes and attributes. -/
structure Container.Holds (c : Container) (name : String) (segment : Nat) (data : Bytes)
    (a : Attributes) : Prop where
  resolve : c.resolve name = .ok segment
  data : (c.segment segment).data = data
  attributes : (c.segment segment).attributes = a

namespace Container.Holds

open Program

variable {σ : Type} {c : Container} {name : String} {segment : Nat} {data data' : Bytes}
  {a a' : Attributes} {s : σ}

theorem modify (hc : c.Holds name segment data a) {f : Segment → Segment}
    (hlive : ∀ s, Live name (f s) = Live name s) (hdata : (f (c.segment segment)).data = data')
    (ha : (f (c.segment segment)).attributes = a') :
    (c.modify segment f).Holds name segment data' a' := by
  have hsegment := segment_modify f (live_of_resolve hc.resolve).1
  exact ⟨(resolve_modify f hlive).trans hc.resolve, hsegment ▸ hdata, hsegment ▸ ha⟩

theorem resolves {J : Nat → Container → σ → Prop} (hc : c.Holds name segment data a)
    (hJ : J segment c s) : (request (.resolve name) : Program σ Nat).Succeeds J c s :=
  succeeds_request (perform_resolve hc.resolve) hJ

theorem asksLength {J : Nat → Container → σ → Prop} (hc : c.Holds name segment data a)
    (hJ : J data.length c s) : (ask (.length segment) : Program σ Nat).Succeeds J c s :=
  succeeds_ask (congrArg (fun d => (c, Except.ok (List.length d))) hc.data) hJ

theorem performs_getAttributes (hc : c.Holds name segment data a) (ids : List AttributeId) :
    ∃ c', c.perform (.getAttributes segment ids) = (c', .ok (ids.map fun id => a[id]?)) ∧
      c'.Holds name segment data a := by
  refine ⟨_, hc.attributes ▸ perform_getAttributes hc.resolve ids, ?_⟩
  exact hc.modify (fun _ => rfl) hc.data hc.attributes

theorem getAttributes {J : List (Option Nat) → Container → σ → Prop}
    (hc : c.Holds name segment data a) (ids : List AttributeId)
    (hJ : ∀ c', c'.Holds name segment data a → J (ids.map fun id => a[id]?) c' s) :
    (request (.getAttributes segment ids) : Program σ (List (Option Nat))).Succeeds J c s := by
  obtain ⟨c', hp, hc'⟩ := hc.performs_getAttributes ids
  exact succeeds_request hp (hJ c' hc')

theorem performs_append (hc : c.Holds name segment data a) (more : Bytes) :
    ∃ c', c.perform (.append segment more) = (c', .ok data.length) ∧
      c'.Holds name segment (data ++ more) a := by
  have hp := perform_append hc.resolve more
  rw [hc.data] at hp
  exact ⟨_, hp, hc.modify (fun _ => rfl) (congrArg (· ++ more) hc.data) hc.attributes⟩

end Container.Holds

structure Container.Shows (c : Container) (name : String) (segment : Nat) (log : List Record)
    (a : Attributes) : Prop where
  resolve : c.resolve name = .ok segment
  data : (c.segment segment).data = Record.encodeAll recordChecksum log
  attributes : (c.segment segment).attributes = a

namespace Container.Shows

open Program

variable {σ : Type} {c : Container} {name : String} {segment : Nat} {log log' : List Record}
  {a a' : Attributes} {s : σ}

theorem holds (hc : c.Shows name segment log a) :
    c.Holds name segment (Record.encodeAll recordChecksum log) a :=
  ⟨hc.resolve, hc.data, hc.attributes⟩

theorem of_holds (hc : c.Holds name segment (Record.encodeAll recordChecksum log) a) :
    c.Shows name segment log a := ⟨hc.resolve, hc.data, hc.attributes⟩

theorem of_holds_append (hc : c.Holds name segment
    (Record.encodeAll recordChecksum log ++ Record.encodeAll recordChecksum log') a) :
    c.Shows name segment (log ++ log') a :=
  of_holds (Log.encodeAll_append recordChecksum log log' ▸ hc)

theorem length (hc : c.Shows name segment log a) :
    (c.segment segment).data.length = Log.size log := by
  rw [hc.data, Log.length_encodeAll]

theorem modify (hc : c.Shows name segment log a) {f : Segment → Segment}
    (hlive : ∀ s, Live name (f s) = Live name s)
    (hdata : (f (c.segment segment)).data = Record.encodeAll recordChecksum log')
    (ha : (f (c.segment segment)).attributes = a') :
    (c.modify segment f).Shows name segment log' a' := of_holds (hc.holds.modify hlive hdata ha)

theorem resolves {J : Nat → Container → σ → Prop} (hc : c.Shows name segment log a)
    (hJ : J segment c s) : (request (.resolve name) : Program σ Nat).Succeeds J c s :=
  hc.holds.resolves hJ

theorem asksLength {J : Nat → Container → σ → Prop} (hc : c.Shows name segment log a)
    (hJ : J (Log.size log) c s) : (ask (.length segment) : Program σ Nat).Succeeds J c s :=
  hc.holds.asksLength (by rwa [Log.length_encodeAll])

theorem performs_getAttributes (hc : c.Shows name segment log a) (ids : List AttributeId) :
    ∃ c', c.perform (.getAttributes segment ids) = (c', .ok (ids.map fun id => a[id]?)) ∧
      c'.Shows name segment log a := by
  obtain ⟨c', hp, hc'⟩ := hc.holds.performs_getAttributes ids
  exact ⟨c', hp, of_holds hc'⟩

theorem getAttributes {J : List (Option Nat) → Container → σ → Prop}
    (hc : c.Shows name segment log a) (ids : List AttributeId)
    (hJ : ∀ c', c'.Shows name segment log a → J (ids.map fun id => a[id]?) c' s) :
    (request (.getAttributes segment ids) : Program σ (List (Option Nat))).Succeeds J c s :=
  hc.holds.getAttributes ids fun c' hc' => hJ c' (of_holds hc')

theorem asksAttributes {J : List (Option Nat) → Container → σ → Prop}
    (hc : c.Shows name segment log a) (ids : List AttributeId)
    (hJ : ∀ c', c'.Shows name segment log a → J (ids.map fun id => a[id]?) c' s) :
    (ask (.getAttributes segment ids) : Program σ (List (Option Nat))).Succeeds J c s := by
  obtain ⟨c', hp, hc'⟩ := hc.performs_getAttributes ids
  exact succeeds_ask hp (hJ c' hc')

theorem performs_read (hc : c.Shows name segment log a) {b d : List Record} {length : Nat}
    (hl : b ++ d <+: log) (hlength : length = Log.size d) :
    c.perform (.read segment (Log.size b) length) =
      (c, .ok (Record.encodeAll recordChecksum d)) := by
  have hsize := Log.size_le_of_prefix hl
  rw [Log.size_append] at hsize
  rw [perform_read hc.resolve (by rw [hc.length]; omega), hc.data,
    Log.slice_encodeAll recordChecksum hl rfl (by rw [hlength])]

theorem performs_updateAttributes (hc : c.Shows name segment log a) (us : List AttributeUpdate) :
    ∃ c', c.perform (.updateAttributes segment us) = (c', .ok ()) ∧
      c'.Shows name segment log (a.updateAll us) := by
  refine ⟨_, perform_updateAttributes hc.resolve us, ?_⟩
  exact hc.modify (fun _ => rfl) hc.data (congrArg (·.updateAll us) hc.attributes)

theorem performs_append (hc : c.Shows name segment log a) (records : List Record) :
    ∃ c', c.perform (.append segment (Record.encodeAll recordChecksum records)) =
        (c', .ok (Log.size log)) ∧ c'.Shows name segment (log ++ records) a := by
  obtain ⟨c', hp, hc'⟩ := hc.holds.performs_append (Record.encodeAll recordChecksum records)
  rw [Log.length_encodeAll] at hp
  exact ⟨c', hp, of_holds_append hc'⟩

end Container.Shows
end KeyedLog
