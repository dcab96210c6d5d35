import KeyedLog.Proofs.Extension.Requests
import KeyedLog.Proofs.Program.Simulation
import KeyedLog.Proofs.Segment.Memory
import Mathlib.Data.List.Lattice
import Mathlib.Data.List.Pairwise
import Mathlib.Logic.Function.Basic

/-! Nesting: programs that take no lock but a free one, and drop what they took in reverse. -/
namespace KeyedLog

namespace Locks

/-- What one holder of guards may do to the locks. A guard is a list of buckets that were locked
together. -/
inductive Shift : Locks → List (List Bucket) → Locks → List (List Bucket) → Prop
  | rest (l : Locks) (gs : List (List Bucket)) : Shift l gs l gs
  | take {l : Locks} (gs : List (List Bucket)) {bs : List Bucket} (h : l.free bs = true) :
      Shift l gs (l.take bs) (bs :: gs)
  | drop (l : Locks) (gs : List (List Bucket)) (bs : List Bucket) :
      Shift l (bs :: gs) (l.release bs) gs

inductive Shifts : Locks → List (List Bucket) → Locks → List (List Bucket) → Prop
  | refl (l : Locks) (gs : List (List Bucket)) : Shifts l gs l gs
  | head {l l' l'' : Locks} {gs gs' gs'' : List (List Bucket)} (h : Shift l gs l' gs')
      (hs : Shifts l' gs' l'' gs'') : Shifts l gs l'' gs''

/-- What comes of any sequence of attempts to lock buckets and of guards being dropped, given the
live guards of each holder. An attempt that is given up leaves everything as it is. -/
inductive History : Locks → (Nat → List (List Bucket)) → Prop
  | empty : History .empty fun _ => []
  | take {l : Locks} {G : Nat → List (List Bucket)} (h : History l G) (i : Nat) {bs : List Bucket}
      (hfree : l.free bs = true) : History (l.take bs) (Function.update G i (bs :: G i))
  | drop {l : Locks} {G : Nat → List (List Bucket)} (h : History l G) (i : Nat)
      {before after : List (List Bucket)} {bs : List Bucket} (hi : G i = before ++ bs :: after) :
      History (l.release bs) (Function.update G i (before ++ after))

/-- What is locked is what is in some guard, and in one only. -/
structure Held (l : Locks) (G : Nat → List (List Bucket)) : Prop where
  mem : ∀ b, l.held.contains b = true ↔ ∃ i, ∃ bs ∈ G i, b ∈ bs
  apart : ∀ i, (G i).Pairwise List.Disjoint
  exclusive : ∀ {i j}, i ≠ j → ∀ bs ∈ G i, ∀ cs ∈ G j, bs.Disjoint cs

variable {l l' : Locks} {G : Nat → List (List Bucket)} {gs gs' : List (List Bucket)}
  {bs : List Bucket} {b : Bucket} {i : Nat}

theorem mem_update_cons {j : Nat} {cs : List Bucket} :
    cs ∈ Function.update G i (bs :: G i) j ↔ (j = i ∧ cs = bs) ∨ cs ∈ G j := by
  by_cases hj : j = i
  · subst hj
    rw [Function.update_self, List.mem_cons]
    simp
  · rw [Function.update_of_ne hj]
    simp [hj]

theorem Held.free_iff (h : Held l G) :
    l.free bs = true ↔ ∀ i, ∀ cs ∈ G i, bs.Disjoint cs := by
  rw [Locks.free_iff]
  constructor
  · intro hfree i cs hcs b hb hbc
    have := (h.mem b).2 ⟨i, cs, hcs, hbc⟩
    rw [hfree b hb] at this
    cases this
  · intro hapart b hb
    rw [Bool.eq_false_iff]
    intro hheld
    obtain ⟨i, cs, hcs, hbc⟩ := (h.mem b).1 hheld
    exact hapart i cs hcs hb hbc

theorem Held.take (h : Held l G) (i : Nat) (hfree : l.free bs = true) :
    Held (l.take bs) (Function.update G i (bs :: G i)) := by
  have hapart := h.free_iff.1 hfree
  refine ⟨fun b => ?_, fun j => ?_, fun {j k} hjk cs hcs ds hds => ?_⟩
  · rw [contains_take, Bool.or_eq_true, decide_eq_true_iff, h.mem]
    simp only [mem_update_cons]
    constructor
    · rintro (hb | ⟨j, cs, hcs, hb⟩)
      · exact ⟨i, bs, .inl ⟨rfl, rfl⟩, hb⟩
      · exact ⟨j, cs, .inr hcs, hb⟩
    · rintro ⟨j, cs, ⟨rfl, rfl⟩ | hcs, hb⟩
      · exact .inl hb
      · exact .inr ⟨j, cs, hcs, hb⟩
  · by_cases hj : j = i
    · subst hj
      rw [Function.update_self]
      exact List.pairwise_cons.2 ⟨hapart j, h.apart j⟩
    · rw [Function.update_of_ne hj]
      exact h.apart j
  · rcases mem_update_cons.1 hcs with ⟨rfl, rfl⟩ | hcs' <;>
      rcases mem_update_cons.1 hds with ⟨rfl, rfl⟩ | hds'
    · exact absurd rfl hjk
    · exact hapart _ _ hds'
    · exact List.disjoint_symm (hapart _ _ hcs')
    · exact h.exclusive hjk _ hcs' _ hds'

theorem Held.drop (h : Held l G) {before after : List (List Bucket)}
    (hi : G i = before ++ bs :: after) :
    Held (l.release bs) (Function.update G i (before ++ after)) := by
  have hpair := h.apart i
  rw [hi, List.pairwise_middle List.disjoint_symm, List.pairwise_cons] at hpair
  have hmem {j : Nat} {cs : List Bucket} (hcs : cs ∈ Function.update G i (before ++ after) j) :
      cs ∈ G j ∧ bs.Disjoint cs := by
    by_cases hj : j = i
    · subst hj
      rw [Function.update_self] at hcs
      refine ⟨?_, hpair.1 cs hcs⟩
      rw [hi]
      exact (List.sublist_cons_self bs after).append_left before |>.mem hcs
    · rw [Function.update_of_ne hj] at hcs
      exact ⟨hcs, h.exclusive (Ne.symm hj) bs (by simp [hi]) cs hcs⟩
  refine ⟨fun b => ?_, fun j => ?_, fun {j k} hjk cs hcs ds hds => ?_⟩
  · rw [contains_release, Bool.and_eq_true, Bool.not_eq_true', decide_eq_false_iff_not, h.mem]
    constructor
    · rintro ⟨hb, j, cs, hcs, hbc⟩
      refine ⟨j, cs, ?_, hbc⟩
      by_cases hj : j = i
      · subst hj
        rw [hi, List.mem_append, List.mem_cons] at hcs
        rw [Function.update_self, List.mem_append]
        rcases hcs with hcs | rfl | hcs
        · exact .inl hcs
        · exact absurd hbc hb
        · exact .inr hcs
      · rwa [Function.update_of_ne hj]
    · rintro ⟨j, cs, hcs, hbc⟩
      exact ⟨fun hb => (hmem hcs).2 hb hbc, j, cs, (hmem hcs).1, hbc⟩
  · by_cases hj : j = i
    · subst hj
      rw [Function.update_self]
      exact hpair.2
    · rw [Function.update_of_ne hj]
      exact h.apart j
  · exact h.exclusive hjk cs (hmem hcs).1 ds (hmem hds).1

theorem History.held (h : History l G) : Held l G := by
  induction h with
  | empty =>
    refine ⟨fun b => ?_, fun _ => .nil, fun _ bs hbs => by cases hbs⟩
    simp [Locks.empty]
  | take _ i hfree ih => exact ih.take i hfree
  | drop _ i hi ih => exact ih.drop hi

theorem History.shift (h : History l G) (hs : Shift l (G i) l' gs') :
    History l' (Function.update G i gs') := by
  generalize hg : G i = gs at hs
  cases hs with
  | rest =>
    subst hg
    rwa [Function.update_eq_self]
  | take _ hfree => exact hg ▸ h.take i hfree
  | drop => exact @History.drop _ _ h i [] _ _ hg

theorem History.shifts (h : History l G) (hs : Shifts l gs l' gs') (hi : G i = gs) :
    History l' (Function.update G i gs') := by
  induction hs generalizing G with
  | refl =>
    subst hi
    rwa [Function.update_eq_self]
  | head hs _ ih =>
    have := ih (h.shift (hi ▸ hs)) (Function.update_self ..)
    rwa [Function.update_idem] at this

end Locks

def Tables.Unlocking (t u : Tables) : Prop := u.locks = t.locks

theorem Tables.usual_unlocking : Usual Unlocking where
  trans h h' := h'.trans h
  cache _ _ := rfl
  modifyState _ _ _ _ := rfl
  track {t} _ segment := by
    unfold Unlocking track
    split <;> rfl
  notify t segment offset := by
    cases offset with
    | none => rfl
    | some offset =>
      unfold Unlocking notify
      dsimp only
      split <;> rfl

namespace Program

variable {α β : Type} {p q : Program Tables α} {gs gs' after : List (List Bucket)}
  {bs : List Bucket} {b : Bucket} {s t u : Tables}

/-- With some guards to begin with, the program takes only locks that are free, drops what it took
last, and is left with certain guards in the end, however it ends. -/
def Nests (after : List (List Bucket)) : Program Tables α → List (List Bucket) → Tables → Prop
  | .ret _, gs, _ | .fail _, gs, _ => gs = after
  | .get k, gs, t => (k t).Nests after gs t
  | .set u k, gs, t => ∃ gs', Locks.Shift t.locks gs u.locks gs' ∧ k.Nests after gs' u
  | .await _ ready k, gs, _ => ∀ t, (k (ready t)).Nests after gs t
  | .clock k, gs, _ => ∀ left t, (k left).Nests after gs t
  | .call _ k, gs, _ => ∀ r t, (k r).Nests after gs t
  | .pause _ k, gs, _ => ∀ t, k.Nests after gs t

def Nested (p : Program Tables α) : Prop := ∀ gs t, p.Nests gs gs t

theorem Nests.attempt_bind {f : Except TableError α → Program Tables β}
    {mid : List (List Bucket)} (hp : p.Nests mid gs t) (hf : ∀ r t, (f r).Nests after mid t) :
    (p.attempt.bind f).Nests after gs t := by
  induction p generalizing gs t with
  | ret a =>
    obtain rfl : gs = mid := hp
    exact hf (.ok a) t
  | fail e =>
    obtain rfl : gs = mid := hp
    exact hf (.error e) t
  | get k ih => exact ih t hp
  | set u k ih =>
    obtain ⟨gs', hs, hk⟩ := hp
    exact ⟨gs', hs, ih hk⟩
  | await b ready k ih => exact fun t => ih (ready t) (hp t)
  | clock k ih => exact fun left t => ih left (hp left t)
  | call q k ih => exact fun r t => ih r (hp r t)
  | pause n k ih => exact fun t => ih (hp t)

theorem nests_ofExcept (r : Except TableError α) (gs : List (List Bucket)) (t : Tables) :
    (ofExcept r).Nests gs gs t := by
  cases r <;> rfl

/-- Whoever has nothing to do with locks keeps the guards there are. -/
theorem Makes.nests {C : Call → Prop} (hp : p.Makes Tables.Unlocking C t)
    (gs : List (List Bucket)) : p.Nests gs gs t := by
  induction p generalizing t with
  | ret | fail => rfl
  | get k ih => exact ih t hp
  | set u k ih =>
    obtain ⟨hu, hk⟩ := hp
    refine ⟨gs, ?_, ih hk⟩
    rw [show u.locks = t.locks from hu]
    exact .rest ..
  | await b ready k ih => exact fun t => ih _ (hp _ t)
  | clock k ih => exact fun left t => ih left (hp left t)
  | call q k ih => exact fun r t => ih r (hp.2 r t)
  | pause n k ih => exact fun t => ih (hp t)

theorem nested_of_makes {C : Call → Prop} (hp : ∀ t, p.Makes Tables.Unlocking C t) : p.Nested :=
  fun gs t => (hp t).nests gs

/-- Guards that are not the program's own do not matter to it. -/
theorem Nests.frame (h : p.Nests after gs t) (rest : List (List Bucket)) :
    p.Nests (after ++ rest) (gs ++ rest) t := by
  induction p generalizing gs t with
  | ret | fail => exact congrArg (· ++ rest) h
  | get k ih => exact ih t h
  | set u k ih =>
    obtain ⟨gs', hs, hk⟩ := h
    refine ⟨gs' ++ rest, ?_, ih hk⟩
    generalize u.locks = l at hs ⊢
    cases hs with
    | rest => exact .rest ..
    | take _ hfree => exact .take _ hfree
    | drop => exact .drop ..
  | await b ready k ih => exact fun t => ih _ (h t)
  | clock k ih => exact fun left t => ih left (h left t)
  | call q k ih => exact fun r t => ih r (h r t)
  | pause n k ih => exact fun t => ih (h t)

def unlock (bs : List Bucket) : Program Tables Unit :=
  modify fun t => { t with locks := t.locks.release bs }

theorem nests_unlock (bs : List Bucket) (gs : List (List Bucket)) (t : Tables) :
    (unlock bs).Nests gs (bs :: gs) t := ⟨gs, .drop .., rfl⟩

theorem Nests.ensuring_unlock (h : p.Nests (bs :: after) gs t) :
    (p.ensuring (unlock bs)).Nests after gs t := by
  refine h.attempt_bind fun o t => ?_
  change ((unlock bs).bind fun _ => ofExcept o).Nests after (bs :: after) t
  rw [bind_eq_attempt_bind]
  refine (nests_unlock bs after t).attempt_bind fun r t => ?_
  cases r with
  | ok => exact nests_ofExcept o after t
  | error => rfl

theorem nested_withLocks (hp : p.Nested) : (Tables.withLocks bs p).Nested := by
  intro gs t u
  change ((ite _ _ _ : Program Tables Unit).bind _).Nests gs gs u
  split
  · next hfree => exact ⟨bs :: gs, .take gs hfree, (hp (bs :: gs) _).ensuring_unlock⟩
  · rfl

/-- To go on is to shift guards, and then to be as well nested as before. -/
theorem Nests.advance (h : p.Nests after gs t) :
    ∃ gs', Locks.Shifts t.locks gs (p.advance t).2.locks gs' ∧
      ∀ u, (p.advance t).1.Nests after gs' u := by
  induction p generalizing gs t with
  | get k ih => exact ih t h
  | set u k ih =>
    obtain ⟨gs', hs, hk⟩ := h
    obtain ⟨gs'', hss, hk⟩ := ih hk
    exact ⟨gs'', .head hs hss, hk⟩
  | ret | fail | await | clock | call | pause => exact ⟨gs, .refl .., fun _ => h⟩

theorem Nests.goes (h : ∀ t, p.Nests after gs t) (hq : p.Goes t q) : q.Nests after gs t := by
  cases hq with
  | get | set => exact h t
  | await met hm =>
    subst hm
    exact h t t
  | clock left => exact h t left t
  | pause => exact h t t

/-- The bucket is locked, and the program cannot but unlock it before it ends. -/
def Owes (b : Bucket) : Program Tables α → Tables → Prop
  | .ret _, _ | .fail _, _ => False
  | .get k, t => (k t).Owes b t
  | .set u k, _ => u.locks.held.contains b = false ∨ k.Owes b u
  | .await _ ready k, _ => ∀ t, t.locks.held.contains b = true → (k (ready t)).Owes b t
  | .clock k, _ => ∀ left t, t.locks.held.contains b = true → (k left).Owes b t
  | .call _ k, _ => ∀ r t, t.locks.held.contains b = true → (k r).Owes b t
  | .pause _ k, _ => ∀ t, t.locks.held.contains b = true → k.Owes b t

/-- What is in a guard is owed. -/
theorem Nests.owes (h : p.Nests [] gs t) (hb : b ∈ gs.flatten)
    (ht : t.locks.held.contains b = true) : p.Owes b t := by
  induction p generalizing gs t with
  | ret | fail =>
    obtain rfl : gs = [] := h
    cases hb
  | get k ih => exact ih t h hb ht
  | set u k ih =>
    obtain ⟨gs', hs, hk⟩ := h
    cases hu : u.locks.held.contains b with
    | false => exact .inl hu
    | true =>
      refine .inr (ih hk ?_ hu)
      generalize u.locks = l at hs hu
      cases hs with
      | rest => exact hb
      | take => exact List.mem_append_right _ hb
      | drop =>
        rw [Locks.contains_release, Bool.and_eq_true, Bool.not_eq_true',
          decide_eq_false_iff_not] at hu
        exact (List.mem_append.1 hb).resolve_left hu.1
  | await b ready k ih => exact fun t ht => ih _ (h t) hb ht
  | clock k ih => exact fun left t ht => ih left (h left t) hb ht
  | call q k ih => exact fun r t ht => ih r (h r t) hb ht
  | pause n k ih => exact fun t ht => ih (h t) hb ht

/-- Nothing else is. -/
theorem Nests.not_owes (h : p.Nests [] gs t) (hb : b ∉ gs.flatten)
    (ht : t.locks.held.contains b = true) : ¬p.Owes b t := by
  induction p generalizing gs t with
  | ret | fail => exact id
  | get k ih => exact ih t h hb ht
  | set u k ih =>
    obtain ⟨gs', hs, hk⟩ := h
    have hkeep : b ∉ gs'.flatten ∧ u.locks.held.contains b = true := by
      generalize u.locks = l at hs
      cases hs with
      | rest => exact ⟨hb, ht⟩
      | take _ hfree =>
        refine ⟨fun hmem => ?_, by rw [Locks.contains_take, ht, Bool.or_true]⟩
        rcases List.mem_append.1 hmem with hmem | hmem
        · rw [Locks.free_iff.1 hfree b hmem] at ht
          cases ht
        · exact hb hmem
      | drop =>
        refine ⟨fun hmem => hb (List.mem_append_right _ hmem), ?_⟩
        rw [Locks.contains_release, ht, Bool.and_true, Bool.not_eq_true', decide_eq_false_iff_not]
        exact fun hmem => hb (List.mem_append_left _ hmem)
    rintro (hu | hu)
    · rw [hkeep.2] at hu
      cases hu
    · exact ih hk hkeep.1 hkeep.2 hu
  | await b ready k ih => exact fun ho => ih _ (h t) hb ht (ho t ht)
  | clock k ih => exact fun ho => ih true (h true t) hb ht (ho true t ht)
  | call q k ih =>
    exact fun ho => ih (.error .closed) (h (.error .closed) t) hb ht (ho (.error .closed) t ht)
  | pause n k ih => exact fun ho => ih (h t) hb ht (ho t ht)

/-- Whoever drops what it takes owes what is owed after it. -/
theorem Nests.owes_attempt_bind {f : Except TableError α → Program Tables β}
    (h : p.Nests after gs t) (ht : t.locks.held.contains b = true)
    (hf : ∀ r t, t.locks.held.contains b = true → (f r).Owes b t) :
    (p.attempt.bind f).Owes b t := by
  induction p generalizing gs t with
  | ret a => exact hf (.ok a) t ht
  | fail e => exact hf (.error e) t ht
  | get k ih => exact ih t h ht
  | set u k ih =>
    obtain ⟨gs', hs, hk⟩ := h
    cases hu : u.locks.held.contains b with
    | false => exact .inl hu
    | true => exact .inr (ih hk hu)
  | await b ready k ih => exact fun t ht => ih _ (h t) ht
  | clock k ih => exact fun left t ht => ih left (h left t) ht
  | call q k ih => exact fun r t ht => ih r (h r t) ht
  | pause n k ih => exact fun t ht => ih (h t) ht

theorem Nests.mem_of_unlock {f : Except TableError α → Program Tables β}
    (h : ∀ t, (p.attempt.bind fun o => (unlock bs).bind fun _ => f o).Nests [] gs t)
    (hp : ∀ t, p.Nests after gs' t) (hb : b ∈ bs) (t : Tables) : b ∈ gs.flatten := by
  have hheld : (t.locks.take bs).held.contains b = true := by
    rw [Locks.contains_take, decide_eq_true hb, Bool.true_or]
  by_contra hno
  -- The program might as well be in a state in which they are locked.
  refine Nests.not_owes (h { t with locks := t.locks.take bs }) hno hheld ?_
  refine Nests.owes_attempt_bind (hp _) hheld fun o u _ => .inl ?_
  rw [Locks.contains_release, decide_eq_true hb]
  rfl

/-- What a program may go on as, whatever becomes of the state wherever it stops. -/
inductive Reaches {σ α : Type} : Program σ α → Program σ α → Prop
  | refl (p : Program σ α) : Reaches p p
  | goOn {p q r : Program σ α} {s : σ} (hp : p.Goes s q) (h : Reaches (q.advance s).1 r) :
      Reaches p r
  | answered {c : Call} {k : Except TableError c.Answer → Program σ α} {r : Program σ α}
      (answer : Except TableError c.Answer) (h : Reaches (k answer) r) : Reaches (.call c k) r

section Reaches

variable {σ : Type} {p q r : Program σ α} {f : Except TableError α → Program σ β} {s : σ}

theorem Reaches.trans (h : p.Reaches q) (h' : q.Reaches r) : p.Reaches r := by
  induction h with
  | refl => exact h'
  | goOn hp _ ih => exact .goOn hp (ih h')
  | answered answer _ ih => exact .answered answer (ih h')

theorem reaches_advance (p : Program σ α) (s : σ) : p.Reaches (p.advance s).1 := by
  cases p with
  | get k => exact .goOn (.get k) (.refl _)
  | set t k => exact .goOn (s := s) (.set t k) (.refl _)
  | ret | fail | await | clock | call | pause => exact .refl _

theorem advance_attempt_bind (p : Program σ α) (f : Except TableError α → Program σ β) (s : σ) :
    (p.attempt.bind f).advance s =
      ((p.advance s).1.attempt.bind f).advance (p.advance s).2 := by
  induction p generalizing s with
  | get k ih => exact ih s s
  | set t k ih => exact ih t
  | ret | fail | await | clock | call | pause => rfl

theorem attempt_ofExcept_bind (o : Except TableError α) :
    (ofExcept o : Program σ α).attempt.bind f = f o := by
  cases o <;> rfl

theorem Goes.resumes (h : p.Goes s q) : p.Resumes q := by
  cases h with
  | get k => exact .get k
  | set t k => exact .set t k
  | await met => exact .await met
  | clock left => exact .clock left
  | pause => exact .pause

theorem Goes.of_attempt_bind {r : Program σ β} (h : (p.attempt.bind f).Goes s r) :
    (∃ q, p.Goes s q ∧ r = q.attempt.bind f) ∨ p.Over := by
  cases p with
  | ret a => exact .inr ⟨.ok a, rfl⟩
  | fail e => exact .inr ⟨.error e, rfl⟩
  | get k =>
    cases h
    exact .inl ⟨_, .get k, rfl⟩
  | set t k =>
    cases h
    exact .inl ⟨_, .set t k, rfl⟩
  | await b ready k =>
    cases h with
    | await met hm hb => exact .inl ⟨_, .await met hm hb, rfl⟩
  | clock k =>
    cases h with
    | clock left => exact .inl ⟨_, .clock left, rfl⟩
  | call q k => cases h
  | pause n k =>
    cases h
    exact .inl ⟨_, .pause, rfl⟩

/-- Of a program and what follows it, one is under way. -/
theorem Reaches.of_attempt_bind {r : Program σ β} (h : (p.attempt.bind f).Reaches r) :
    (∃ q, p.Reaches q ∧ r = q.attempt.bind f) ∨
      ∃ o, p.Reaches (ofExcept o) ∧ (f o).Reaches r := by
  generalize hw : p.attempt.bind f = w at h
  induction h generalizing p with
  | refl => exact .inl ⟨p, .refl p, hw.symm⟩
  | @goOn _ w' r s hgoes hr ih =>
    subst hw
    rcases hgoes.of_attempt_bind with ⟨q, hq, rfl⟩ | ⟨o, rfl⟩
    · rw [advance_attempt_bind] at hr ih
      rcases suspended_or_over_advance q s with hstop | ⟨o, ho⟩
      · have hrest : ((q.advance s).1.attempt.bind f) =
            (((q.advance s).1.attempt.bind f).advance (q.advance s).2).1 := by
          cases hadv : (q.advance s).1 with
          | await | clock | call | pause => rfl
          | ret | fail | get | set => exact (hadv ▸ hstop).elim
        rcases ih hrest with ⟨q', hq', he⟩ | ⟨o, ho, hf⟩
        · exact .inl ⟨q', .goOn hq hq', he⟩
        · exact .inr ⟨o, .goOn hq ho, hf⟩
      · rw [ho, attempt_ofExcept_bind] at hr
        exact .inr ⟨o, .goOn hq (ho ▸ .refl _), (reaches_advance _ _).trans hr⟩
    · rw [attempt_ofExcept_bind] at hgoes
      exact .inr ⟨o, .refl _, .goOn hgoes hr⟩
  | @answered c k r answer hr ih =>
    cases p with
    | call c' k' =>
      cases hw
      rcases ih rfl with ⟨q, hq, he⟩ | ⟨o, ho, hf⟩
      · exact .inl ⟨q, .answered answer hq, he⟩
      · exact .inr ⟨o, .answered answer ho, hf⟩
    | ret a =>
      refine .inr ⟨.ok a, .refl _, ?_⟩
      rw [show f (.ok a) = .call c k from hw]
      exact .answered answer hr
    | fail e =>
      refine .inr ⟨.error e, .refl _, ?_⟩
      rw [show f (.error e) = .call c k from hw]
      exact .answered answer hr
    | get | set | await | clock | pause => cases hw

end Reaches

/-- Wherever the program stops, it has guards that it is bound to drop. -/
theorem Nests.reaches (h : ∀ t, p.Nests after gs t) (hq : p.Reaches q) :
    ∃ gs', ∀ t, q.Nests after gs' t := by
  induction hq generalizing gs with
  | refl => exact ⟨gs, h⟩
  | goOn hp _ ih =>
    obtain ⟨gs', -, h'⟩ := (Nests.goes h hp).advance
    exact ih h'
  | answered answer _ ih => exact ih fun t => h t answer t

theorem Makes.reaches {C : Call → Prop} (h : ∀ t, p.Makes Tables.Unlocking C t)
    (hq : p.Reaches q) : ∀ t, q.Makes Tables.Unlocking C t := by
  induction hq with
  | refl => exact h
  | @goOn _ _ _ s hp _ ih =>
    have hresume := Makes.resume h hp.resumes s
    exact ih (hresume.advance (fun _ => rfl) Tables.usual_unlocking.trans).2
  | answered answer _ ih => exact ih fun t => (h t).2 answer t

end Program
end KeyedLog
