import KeyedLog.Schedule

/-! What a container answers about a live segment, and what its calls leave of it. -/
namespace KeyedLog.Container

variable {c : Container} {name : String} {id : Nat}

/-- A change of one segment that keeps its name and leaves it alive or not. -/
theorem resolve_modify (f : Segment → Segment) (hf : ∀ s, Live name (f s) = Live name s) :
    (c.modify id f).resolve name = c.resolve name := by
  have hmap : (c.segments.modify id f).map (Live name) = c.segments.map (Live name) := by
    apply Array.ext
    · simp
    · intro i h _
      simp only [Array.getElem_map, Array.getElem_modify]
      split
      · exact hf _
      · rfl
  have hfind : (c.segments.modify id f).findIdx? (Live name) =
      c.segments.findIdx? (Live name) := by
    have h := congrArg (Array.findIdx? fun b : Bool => b) hmap
    rwa [Array.findIdx?_map, Array.findIdx?_map] at h
  unfold resolve modify
  dsimp only
  rw [hfind]

theorem segment_modify (f : Segment → Segment) (h : id < c.segments.size) :
    (c.modify id f).segment id = f (c.segment id) := by
  have hsize : id < (c.segments.modify id f).size := by rwa [Array.size_modify]
  unfold segment modify
  rw [Array.getElem?_eq_getElem hsize, Array.getElem?_eq_getElem h, Array.getElem_modify_self]
  rfl

theorem segment_modify_of_ne (f : Segment → Segment) {other : Nat} (h : id ≠ other) :
    (c.modify id f).segment other = c.segment other := by
  unfold segment modify
  rw [Array.getElem?_modify, if_neg h]

theorem live_of_resolve (h : c.resolve name = .ok id) :
    id < c.segments.size ∧ Live name (c.segment id) = true := by
  unfold resolve at h
  split at h
  · next n hn =>
    obtain rfl := Except.ok.inj h
    obtain ⟨hlt, hlive, -⟩ := Array.findIdx?_eq_some_iff_getElem.1 hn
    exact ⟨hlt, by simpa [segment, hlt] using hlive⟩
  · cases h

theorem existing_of_resolve (h : c.resolve name = .ok id) :
    c.existing id = .ok (c.segment id) := by
  have hlive := (live_of_resolve h).2
  have hd : (c.segment id).deleted = false := by
    simp [Live] at hlive
    exact hlive.2
  simp [existing, hd]

theorem perform_resolve (h : c.resolve name = .ok id) :
    c.perform (.resolve name) = (c, .ok id) :=
  congrArg (Prod.mk c) h

theorem perform_read (h : c.resolve name = .ok id) {offset length : Nat}
    (hlen : offset + length ≤ (c.segment id).data.length) :
    c.perform (.read id offset length) =
      (c, .ok ((c.segment id).data.slice offset (offset + length))) := by
  have hread : (c.existing id).bind (·.read offset length) =
      .ok ((c.segment id).data.slice offset (offset + length)) := by
    rw [existing_of_resolve h]
    exact if_pos hlen
  exact congrArg (Prod.mk c) hread

theorem perform_getAttributes (h : c.resolve name = .ok id) (ids : List AttributeId) :
    c.perform (.getAttributes id ids) =
      (c.modify id fun s => { s with attributeReads := s.attributeReads + 1 },
        .ok (ids.map fun a => (c.segment id).attributes[a]?)) := by
  have hget : c.getAttributes id ids = .ok (c.modify id fun s =>
      { s with attributeReads := s.attributeReads + 1 },
        ids.map fun a => (c.segment id).attributes[a]?) := by
    rw [getAttributes, existing_of_resolve h]
    rfl
  exact congrArg (settle c) hget

theorem perform_updateAttributes (h : c.resolve name = .ok id) (us : List AttributeUpdate) :
    c.perform (.updateAttributes id us) =
      (c.modify id fun s => { s with attributes := s.attributes.updateAll us }, .ok ()) := by
  have hupdate : c.updateAttributes id us =
      .ok (c.modify id fun s => { s with attributes := s.attributes.updateAll us }) := by
    rw [updateAttributes, existing_of_resolve h]
    rfl
  exact congrArg (fun r => settle c (r.map (·, ()))) hupdate

theorem perform_append (h : c.resolve name = .ok id) (data : Bytes) :
    c.perform (.append id data) =
      (c.modify id (·.append data []), .ok (c.segment id).data.length) := by
  have happend : c.append id data [] =
      .ok (c.modify id (·.append data []), (c.segment id).data.length) := by
    rw [append, existing_of_resolve h]
    rfl
  exact congrArg (settle c) happend

theorem perform_delete (h : c.resolve name = .ok id) :
    c.perform (.delete name) = (c.modify id ({ · with deleted := true }), .ok ()) := by
  have hdelete : c.delete name = .ok (c.modify id ({ · with deleted := true })) := by
    rw [delete, h]
    rfl
  exact congrArg (fun r => settle c (r.map (·, ()))) hdelete

theorem perform_of_serve {q : Call} {fate : Fate} {a : q.Answer} (h : (c.serve q fate).2 = .ok a) :
    fate = .served ∧ c.perform q = ((c.serve q fate).1, .ok a) := by
  cases fate with
  | served => exact ⟨rfl, Prod.ext rfl h⟩
  | refused | lost => cases h

/-- What a call may make of a container. -/
inductive Becomes (c : Container) : Call → Container → Prop
  | same (q : Call) : Becomes c q c
  | create {name : String} (us : List AttributeUpdate) {e : TableError}
    (h : c.resolve name = .error e) :
    Becomes c (.create name us) { c with segments := c.segments.push (.ofAttributes name us) }
  | delete {name : String} {id : Nat} (h : c.resolve name = .ok id) :
    Becomes c (.delete name) (c.modify id ({ · with deleted := true }))
  | append (id : Nat) (data : Bytes) : Becomes c (.append id data) (c.modify id (·.append data []))
  | getAttributes (id : Nat) (ids : List AttributeId) : Becomes c (.getAttributes id ids)
    (c.modify id fun s => { s with attributeReads := s.attributeReads + 1 })
  | updateAttributes (id : Nat) (us : List AttributeUpdate) : Becomes c (.updateAttributes id us)
    (c.modify id fun s => { s with attributes := s.attributes.updateAll us })

theorem becomes_perform (c : Container) (q : Call) : c.Becomes q (c.perform q).1 := by
  cases q with
  | resolve | read | length => exact .same _
  | create name us =>
    change c.Becomes _ (c.settle ((c.create name us).map (·, ()))).1
    unfold create
    cases h : c.resolve name with
    | ok => exact .same _
    | error e => exact .create us h
  | delete name =>
    change c.Becomes _ (c.settle ((c.delete name).map (·, ()))).1
    unfold delete
    cases h : c.resolve name with
    | ok id => exact .delete h
    | error e => exact .same _
  | append id data =>
    change c.Becomes _ (c.settle (c.append id data [])).1
    unfold append
    cases c.existing id with
    | ok s => exact .append id data
    | error e => exact .same _
  | getAttributes id ids =>
    change c.Becomes _ (c.settle (c.getAttributes id ids)).1
    unfold getAttributes
    cases c.existing id with
    | ok s => exact .getAttributes id ids
    | error e => exact .same _
  | updateAttributes id us =>
    change c.Becomes _ (c.settle ((c.updateAttributes id us).map (·, ()))).1
    unfold updateAttributes
    cases c.existing id with
    | ok s => exact .updateAttributes id us
    | error e => exact .same _

theorem becomes_serve (c : Container) (q : Call) (fate : Fate) :
    c.Becomes q (c.serve q fate).1 := by
  cases fate with
  | served | lost => exact c.becomes_perform q
  | refused => exact .same q

variable {d : Container} {q : Call}

theorem Becomes.size_le (h : c.Becomes q d) : c.segments.size ≤ d.segments.size := by
  cases h with
  | same => exact Nat.le_refl _
  | create => simp
  | delete | append | getAttributes | updateAttributes => simp [modify]

end KeyedLog.Container
