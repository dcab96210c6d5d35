import KeyedLog.Proofs.Alone.Find
import KeyedLog.Proofs.Program.Inquiry

/-! What a lookup comes to while nobody else is at work: it is settled by whether an access
succeeds, and by where links lead then. -/
namespace KeyedLog

namespace Program

variable {σ α β : Type} {I J L : Container → σ → Prop}

/-- Wherever things are as described, the program comes to one and the same outcome. If it succeeds,
things are as described then. -/
def Settles (p : Program σ α) (I J : Container → σ → Prop) : Prop :=
  ∃ r, ∀ c s, I c s →
    (p.run true c s).1 = r ∧ ((∃ a, r = .ok a) → J (p.run true c s).2.1 (p.run true c s).2.2)

theorem settles_of_succeeds {p : Program σ α} (a : α)
    (h : ∀ c s, I c s → p.Succeeds (fun b c s => b = a ∧ J c s) c s) : p.Settles I J := by
  refine ⟨.ok a, fun c s hI => ?_⟩
  obtain ⟨b, c', s', hrun, rfl, hJ⟩ := h c s hI
  rw [hrun]
  exact ⟨rfl, fun _ => hJ⟩

theorem settles_pure (a : α) : (pure a : Program σ α).Settles I I :=
  settles_of_succeeds a fun _ _ hI => (succeeds_pure a).2 ⟨rfl, hI⟩

theorem settles_fail (e : TableError) : (.fail e : Program σ α).Settles I J :=
  ⟨.error e, fun _ _ _ => ⟨rfl, fun ⟨_, h⟩ => by cases h⟩⟩

theorem Settles.bind {p : Program σ α} {f : α → Program σ β} (hp : p.Settles I J)
    (hf : ∀ a, (f a).Settles J L) : (p >>= f).Settles I L := by
  obtain ⟨r, hr⟩ := hp
  cases r with
  | error e =>
    refine ⟨.error e, fun c s hI => ?_⟩
    obtain ⟨hrun, -⟩ := hr c s hI
    rw [run_bind]
    generalize p.run true c s = x at hrun ⊢
    obtain ⟨r, c', s'⟩ := x
    obtain rfl : r = .error e := hrun
    exact ⟨rfl, fun ⟨_, h⟩ => by cases h⟩
  | ok a =>
    obtain ⟨r, hfr⟩ := hf a
    refine ⟨r, fun c s hI => ?_⟩
    obtain ⟨hrun, hJ⟩ := hr c s hI
    rw [run_bind]
    generalize p.run true c s = x at hrun hJ ⊢
    obtain ⟨b, c', s'⟩ := x
    obtain rfl : b = .ok a := hrun
    exact hfr c' s' (hJ ⟨a, rfl⟩)

theorem Settles.imp {p : Program σ α} (h : p.Settles I J) (hJ : ∀ c s, J c s → L c s) :
    p.Settles I L := by
  obtain ⟨r, hr⟩ := h
  exact ⟨r, fun c s hI => ⟨(hr c s hI).1, fun ha => hJ _ _ ((hr c s hI).2 ha)⟩⟩

theorem Settles.bind_of_succeeds {p : Program σ α} {f : α → Program σ β} (a : α)
    (hp : ∀ c s, I c s → p.Succeeds (fun b c s => b = a ∧ J c s) c s) (hf : (f a).Settles J L) :
    (p >>= f).Settles I L := by
  obtain ⟨r, hr⟩ := hf
  refine ⟨r, fun c s hI => ?_⟩
  obtain ⟨b, c', s', hrun, rfl, hJ⟩ := hp c s hI
  rw [run_bind, hrun]
  exact hr c' s' hJ

theorem settles_map {p : Program σ α} (f : α → β) (hp : p.Settles I J) :
    (f <$> p).Settles I J := hp.bind fun a => settles_pure (f a)

theorem settles_mapM {f : α → Program σ β} (hf : ∀ a, (f a).Settles I I) (l : List α) :
    (l.mapM f).Settles I I := by
  induction l with
  | nil => exact settles_pure []
  | cons a l ih =>
    rw [List.mapM_cons]
    exact (hf a).bind fun b => ih.bind fun bs => settles_pure (b :: bs)

theorem mapM_congr {f g : α → Program σ β} {l : List α} (h : ∀ a ∈ l, f a = g a) :
    l.mapM f = l.mapM g := by
  induction l with
  | nil => rfl
  | cons a l ih =>
    rw [List.mapM_cons, List.mapM_cons, h a (by simp), ih fun b hb => h b (by simp [hb])]

end Program

open Program

theorem Walk.settles_findFrom {σ : Type} {I : Container → σ → Prop} {mode : ReadMode}
    {segment : Nat} {key : Bytes} {back : Nat → Program σ (Option Nat)}
    (hvisit : ∀ x, (Walk.visit mode segment key x : Program σ Walk.Answer).Settles I I)
    (hback : ∀ x, (back x).Settles I I) (left hops x : Nat) :
    (Walk.findFrom mode segment back key left hops x).Settles I I := by
  induction left generalizing hops x with
  | zero =>
    unfold Walk.findFrom
    refine (hvisit x).bind fun answer => ?_
    cases answer with
    | found entry => exact settles_pure _
    | removed => exact settles_pure _
    | other => exact settles_fail _
  | succ left ih =>
    unfold Walk.findFrom
    refine (hvisit x).bind fun answer => ?_
    cases answer with
    | found entry => exact settles_pure _
    | removed => exact settles_pure _
    | other =>
      refine (hback x).bind fun previous => ?_
      cases previous with
      | none => exact settles_pure _
      | some y =>
        dsimp only
        split
        · exact ih (hops + 1) y
        · exact settles_fail _

open Tables

/-- What lookups go by: whether an access succeeds, and where links lead then. -/
structure Guide where
  config : Config
  name : String
  segment : Nat
  log : List Record
  entry : Except TableError Unit
  head : KeyHash → Option Nat
  previous : Nat → Option Nat

namespace Guide

variable {G : Guide} {c : Container} {t : Tables} {ref : Nat} {α : Type}
  {J : Container → Tables → Prop}

def Followed (G : Guide) (c : Container) (t : Tables) : Prop :=
  ∃ a ref s, c.Shows G.name G.segment G.log a ∧ t.Ready G.segment ref s ∧
    ∀ x : Nat, s.backpointers[x]?.getD a[AttributeId.backpointer x]? = G.previous x

structure Usable (G : Guide) (ref : Nat) (a : Attributes) (s : SegmentState) (c : Container)
    (t : Tables) : Prop where
  shows : c.Shows G.name G.segment G.log a
  ready : t.Ready G.segment ref s
  previous : ∀ x : Nat, s.backpointers[x]?.getD a[AttributeId.backpointer x]? = G.previous x
  head : ∀ h : KeyHash, h.Proper →
    (t.knownHead G.segment ref h).or a[AttributeId.bucket h]? = G.head h

/-- Whoever makes an access finds out what the guide says. -/
structure Leads (G : Guide) (c : Container) (t : Tables) : Prop where
  opened : t.closed = false
  resolve : c.resolve G.name = .ok G.segment
  access : ∃ r d u, (Tables.access G.config G.segment).run true c t = (r, d, u) ∧
    ((∃ ref a s, r = .ok ref ∧ G.entry = .ok () ∧ G.Usable ref a s d u) ∨
      ∃ e, r = .error e ∧ G.entry = .error e)

theorem settles_backpointer (x : Nat) :
    (backpointer G.config G.segment x).Settles G.Followed G.Followed := by
  refine settles_of_succeeds (G.previous x) fun c t h => ?_
  obtain ⟨a, ref, s, hshows, hready, hs⟩ := h
  refine succeeds_backpointer hshows hready fun c' hc' => ?_
  exact ⟨hs x, a, ref, s, hc', hready, hs⟩

theorem settles_read (x n : Nat) :
    (request (.read G.segment x n) : Program Tables Bytes).Settles G.Followed G.Followed := by
  let shown : Segment :=
    { Segment.ofAttributes "" [] with data := Record.encodeAll recordChecksum G.log }
  refine ⟨shown.read x n, fun c t h => ?_⟩
  obtain ⟨a, ref, s, hshows, -⟩ := id h
  have hperform : c.perform (.read G.segment x n) = (c, shown.read x n) := by
    change (c, (c.existing G.segment).bind (·.read x n)) = _
    rw [Container.existing_of_resolve hshows.resolve]
    change (c, (c.segment G.segment).read x n) = _
    unfold Segment.read
    rw [hshows.data]
  have hrun : (request (.read G.segment x n) : Program Tables Bytes).run true c t =
      (shown.read x n, c, t) := by
    change (ofExcept (c.perform (.read G.segment x n)).2 : Program Tables Bytes).run true
      (c.perform (.read G.segment x n)).1 t = _
    rw [hperform]
    cases shown.read x n <;> rfl
  rw [hrun]
  exact ⟨rfl, fun _ => h⟩

theorem settles_visit (mode : ReadMode) (key : Bytes) (x : Nat) :
    (Walk.visit mode G.segment key x : Program Tables Walk.Answer).Settles G.Followed
      G.Followed := by
  have hofExcept {β : Type} (r : Except TableError β) :
      (ofExcept r : Program Tables β).Settles G.Followed G.Followed := by
    cases r with
    | ok b => exact settles_pure b
    | error e => exact settles_fail e
  unfold Walk.visit
  refine (settles_read x _).bind fun data => (hofExcept _).bind fun header => ?_
  split
  · exact settles_pure _
  · exact (settles_read x _).bind fun data => hofExcept _

theorem settles_find (mode : ReadMode) (key : Bytes) (head : Nat) :
    (Walk.find mode G.segment (backpointer G.config G.segment) G.config.maxChainLength key
      head).Settles G.Followed G.Followed :=
  Walk.settles_findFrom (settles_visit mode key) settles_backpointer _ _ _

theorem Usable.headsWith {a : Attributes} {s : SegmentState} {hashes : List KeyHash}
    (h : G.Usable ref a s c t) (hproper : ∀ h ∈ hashes, h.Proper) :
    (Tables.headsWith G.segment ref hashes).Succeeds
      (fun m c t => (∀ h ∈ hashes, m[h]? = G.head h) ∧ G.Followed c t) c t := by
  apply succeeds_headsWith h.shows.holds
  intro m c' cache hc' hm _
  have hready : ({ t with cache } : Tables).Ready G.segment ref s :=
    ⟨h.ready.indexOpened, h.ready.keeps.withCache cache, h.ready.unclosed, h.ready.recovered⟩
  refine ⟨fun k hk => ?_, a, ref, s, .of_holds hc', hready, h.previous⟩
  exact (hm k hk).trans (h.head k (hproper k hk))

/-- Whatever is done with the heads of buckets comes to one and the same outcome. -/
theorem settles_heads_bind {hashes : List KeyHash} {f : Heads → Program Tables α}
    (hproper : ∀ h ∈ hashes, h.Proper)
    (hf : ∀ m m', (∀ h ∈ hashes, m[h]? = m'[h]?) → f m = f m')
    (hJ : ∀ m, (f m).Settles G.Followed J) :
    (heads G.config G.segment hashes >>= f).Settles G.Leads J := by
  let m₀ := Heads.collect G.head ∅ hashes
  have hm₀ (m : Heads) (hm : ∀ h ∈ hashes, m[h]? = G.head h) : f m = f m₀ := by
    refine hf m m₀ fun h hh => (hm h hh).trans ?_
    rw [Heads.getElem?_collect, if_pos hh]
    simp
  obtain ⟨r, hr⟩ := hJ m₀
  have hassoc : heads G.config G.segment hashes >>= f =
      access G.config G.segment >>= fun ref => headsWith G.segment ref hashes >>= f := by
    unfold heads
    rw [LawfulMonad.bind_assoc]
  rw [hassoc]
  cases hentry : G.entry with
  | error e =>
    refine ⟨.error e, fun c t h => ?_⟩
    obtain ⟨r', c', t', hrun, ⟨ref, a, s, -, hok, -⟩ | ⟨e', rfl, he⟩⟩ := h.access
    · cases hok.symm.trans hentry
    · obtain rfl : e' = e := Except.error.inj (he.symm.trans hentry)
      rw [run_bind, hrun]
      exact ⟨rfl, fun ⟨_, h⟩ => by cases h⟩
  | ok u =>
    refine ⟨r, fun c t h => ?_⟩
    obtain ⟨r', c', t', hrun, ⟨ref, a, s, rfl, -, husable⟩ | ⟨e', -, he⟩⟩ := h.access
    · obtain ⟨m, c'', t'', hrun', hm, hfollowed⟩ := husable.headsWith hproper
      rw [run_bind, hrun]
      dsimp only
      rw [run_bind, hrun']
      dsimp only
      rw [hm₀ m hm]
      exact hr c'' t'' hfollowed
    · cases he.symm.trans hentry

theorem settles_lookup (mode : ReadMode) (keys : List Bytes) :
    (lookup G.config mode G.name keys).Settles G.Leads fun _ _ => True := by
  unfold lookup
  refine Settles.bind_of_succeeds (J := G.Leads) () (fun c t h => ?_) ?_
  · exact succeeds_checkOpen h.opened ⟨rfl, h⟩
  split
  · exact (settles_pure []).imp fun _ _ _ => trivial
  cases hk : keys.mapM G.config.hasher.hash with
  | error e => exact settles_fail e
  | ok hashes =>
  refine Settles.bind_of_succeeds (p := request (.resolve G.name)) (J := G.Leads) G.segment
    (fun c t h => ?_) ?_
  · exact succeeds_request (Container.perform_resolve h.resolve) ⟨rfl, h⟩
  refine settles_heads_bind (fun h hh => ?_) (fun m m' hm => mapM_congr ?_) fun m => ?_
  · obtain ⟨key, -, hkey⟩ := exists_of_forall₂ (mapM_ok hk) (List.mem_eraseDups.1 hh)
    exact Hasher.proper_of_hash hkey
  · rintro ⟨key, h⟩ hmem
    dsimp only
    rw [hm h (List.mem_eraseDups.2 (List.of_mem_zip hmem).2)]
  · refine (settles_mapM (fun e => ?_) _).imp fun _ _ _ => trivial
    dsimp only
    split
    · exact settles_find mode _ _
    · exact settles_pure none

end Guide

def Outlook.Queries : Operation → Prop
  | .get _ | .getKeys _ => True
  | _ => False

/-- Whoever reads gets the same answer wherever the same guide leads. -/
theorem Guide.settles_query {G : Guide} {op : Operation} (h : Outlook.Queries op) :
    (op.program G.config G.name).Settles G.Leads fun _ _ => True := by
  cases op with
  | get keys => exact settles_map _ ((settles_lookup .entry keys).bind fun _ => settles_pure _)
  | getKeys keys => exact settles_map _ ((settles_lookup .key keys).bind fun _ => settles_pure _)
  | put | remove | index => exact h.elim

end KeyedLog
