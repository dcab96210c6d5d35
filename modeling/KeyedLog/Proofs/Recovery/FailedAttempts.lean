import KeyedLog.Proofs.Write.AllOrNothing

/-! Attempts: what a thread that works alone asks for and what it leaves, however its calls turn
out, as long as nothing is settled. -/
namespace KeyedLog

open Outlook (Near)

/-- A point of interruption, at which cached heads may be lost, and from which on nobody watches
once things are settled. -/
def World.Watched (settled : World Tables Unit → Prop) (w : World Tables Unit)
    (next : World Tables Unit → Prop) : Prop :=
  ∀ v, Near w v → ¬settled v → next v

theorem World.Watched.near {settled next : World Tables Unit → Prop} {w v : World Tables Unit}
    (h : w.Watched settled next) (hv : Near w v) : v.Watched settled next :=
  fun u hu => h u (hv.trans hu)

namespace Program

variable {α β : Type} {settled : World Tables Unit → Prop}
  {E : TableError → List Call → World Tables Unit → Prop} {qs : List Call}
  {w v : World Tables Unit}

/-- However its calls turn out, a program that runs alone ends well, unless things are settled
before it ends. All calls up to then are told along with what it leaves. -/
def Tries (settled : World Tables Unit → Prop) (K : α → List Call → World Tables Unit → Prop)
    (E : TableError → List Call → World Tables Unit → Prop) :
    Program Tables α → List Call → World Tables Unit → Prop
  | .ret a, qs, w => K a qs w
  | .fail e, qs, w => E e qs w
  | .get k, qs, w => (k w.state).Tries settled K E qs w
  | .set s k, qs, w => k.Tries settled K E qs ⟨w.container, s, ()⟩
  | .await bounded ready k, qs, w => w.Watched settled fun v =>
      (ready v.state = true → (k true).Tries settled K E qs v) ∧
      (ready v.state = false → bounded = true → (k false).Tries settled K E qs v)
  | .clock k, qs, w => w.Watched settled fun v => ∀ left, (k left).Tries settled K E qs v
  | .call q k, qs, w => w.Watched settled fun v => ∀ fate, Pool.surroundings.fates q fate →
      ∀ u, Near ⟨(v.container.serve q fate).1, v.state, ()⟩ u →
        (k (v.container.serve q fate).2).Tries settled K E (qs ++ [q]) u
  | .pause _ k, qs, w => w.Watched settled fun v => k.Tries settled K E qs v

theorem tries_bind (p : Program Tables α) (f : α → Program Tables β)
    (K : β → List Call → World Tables Unit → Prop) (qs : List Call) (w : World Tables Unit) :
    (p >>= f).Tries settled K E qs w ↔
      p.Tries settled (fun a qs v => (f a).Tries settled K E qs v) E qs w := by
  change (p.bind f).Tries settled K E qs w ↔ _
  induction p generalizing qs w with
  | ret | fail => rfl
  | get k ih => exact ih w.state qs w
  | set s k ih => exact ih qs _
  | await b r k ih => simp only [Program.bind, Tries, ih]
  | clock k ih => simp only [Program.bind, Tries, ih]
  | call q k ih => simp only [Program.bind, Tries, ih]
  | pause n k ih => simp only [Program.bind, Tries, ih]

theorem tries_attempt (p : Program Tables α)
    (K : Except TableError α → List Call → World Tables Unit → Prop) (qs : List Call)
    (w : World Tables Unit) :
    p.attempt.Tries settled K E qs w ↔
      p.Tries settled (fun a => K (.ok a)) (fun e => K (.error e)) qs w := by
  induction p generalizing qs w with
  | ret | fail => rfl
  | get k ih => exact ih w.state qs w
  | set s k ih => exact ih qs _
  | await b r k ih => simp only [attempt, Tries, ih]
  | clock k ih => simp only [attempt, Tries, ih]
  | call q k ih => simp only [attempt, Tries, ih]
  | pause n k ih => simp only [attempt, Tries, ih]

theorem tries_ensuring (p : Program Tables α) (last : Program Tables Unit)
    (K : α → List Call → World Tables Unit → Prop) :
    (p.ensuring last).Tries settled K E qs w ↔
      p.Tries settled (fun a => last.Tries settled (fun _ => K a) E)
        (fun e => last.Tries settled (fun _ => E e) E) qs w := by
  unfold ensuring
  rw [tries_bind, tries_attempt]
  simp only [tries_bind]
  exact Iff.rfl

theorem Tries.mono {K K' : α → List Call → World Tables Unit → Prop}
    {E' : TableError → List Call → World Tables Unit → Prop} {p : Program Tables α}
    (h : p.Tries settled K E qs w) (hK : ∀ a qs v, K a qs v → K' a qs v)
    (hE : ∀ e qs v, E e qs v → E' e qs v) : p.Tries settled K' E' qs w := by
  induction p generalizing qs w with
  | ret a => exact hK a qs w h
  | fail e => exact hE e qs w h
  | get k ih => exact ih w.state h
  | set s k ih => exact ih h
  | await b r k ih =>
    intro v hv hs
    obtain ⟨hmet, hgone⟩ := h v hv hs
    exact ⟨fun hr => ih true (hmet hr), fun hr hb => ih false (hgone hr hb)⟩
  | clock k ih => exact fun v hv hs left => ih left (h v hv hs left)
  | call q k ih => exact fun v hv hs fate hf u hu => ih _ (h v hv hs fate hf u hu)
  | pause n k ih => exact fun v hv hs => ih (h v hv hs)

theorem Tries.advance {K : α → List Call → World Tables Unit → Prop} {p : Program Tables α}
    (h : p.Tries settled K E qs w) :
    (p.advance w.state).1.Tries settled K E qs ⟨w.container, (p.advance w.state).2, ()⟩ := by
  induction p generalizing w with
  | get k ih => exact ih w.state h
  | set s k ih => exact ih h
  | ret | fail | await | clock | call | pause => exact h

theorem Tries.near {K : α → List Call → World Tables Unit → Prop} {p : Program Tables α}
    (hK : ∀ a {qs w v}, Near w v → K a qs w → K a qs v)
    (hE : ∀ e {qs w v}, Near w v → E e qs w → E e qs v) (hp : p.Point)
    (h : p.Tries settled K E qs w) (hv : Near w v) : p.Tries settled K E qs v := by
  cases p with
  | get | set => exact hp.elim
  | ret a => exact hK a hv h
  | fail e => exact hE e hv h
  | await b r k => exact World.Watched.near h hv
  | clock k => exact World.Watched.near h hv
  | call q k => exact World.Watched.near h hv
  | pause n k => exact World.Watched.near h hv

/-- What is said of a program holds of its run if nobody is there and nothing fails. -/
theorem Tries.run {K : α → List Call → World Tables Unit → Prop} {p : Program Tables α} {a : α}
    {c' : Container} {t' : Tables} (h : p.Tries (fun _ => False) K E qs w)
    (hun : p.Unblocked w.container w.state)
    (hrun : p.run true w.container w.state = (.ok a, c', t')) :
    ∃ qs', K a qs' ⟨c', t', ()⟩ := by
  induction p generalizing qs w with
  | ret b =>
    obtain ⟨rfl, rfl, rfl⟩ : b = a ∧ w.container = c' ∧ w.state = t' := by simpa [run] using hrun
    exact ⟨qs, h⟩
  | fail e => cases hrun
  | get k ih => exact ih w.state h hun hrun
  | set s k ih => exact ih (w := ⟨w.container, s, ()⟩) h hun hrun
  | await b ready k ih =>
    obtain ⟨hmet, hgone⟩ := h w (.refl w) id
    obtain ⟨hb, hun⟩ := hun
    cases hready : ready w.state with
    | true =>
      rw [hready] at hun
      rw [run, hready] at hrun
      exact ih true (hmet hready) hun hrun
    | false =>
      rw [hready] at hun hb
      rw [run, hready] at hrun
      exact ih false (hgone hready (by simpa using hb)) hun hrun
  | clock k ih => exact ih true (h w (.refl w) id true) hun hrun
  | call q k ih =>
    have hserved : Pool.surroundings.fates q .served := fun e _ _ he => by cases he
    exact ih _ (h w (.refl w) id .served hserved _ (.refl _)) hun hrun
  | pause n k ih => exact ih (h w (.refl w) id) hun hrun

theorem tries_read {K : Tables → List Call → World Tables Unit → Prop} :
    read.Tries settled K E qs w ↔ K w.state qs w := Iff.rfl

theorem tries_modify {K : Unit → List Call → World Tables Unit → Prop} {f : Tables → Tables}
    (hK : K () qs ⟨w.container, f w.state, ()⟩) :
    (modify f).Tries settled K E qs w := hK

end Program

namespace Pool

open Program

variable {α : Type} {y z : Pool Tables α} {e : Event Tables α} {fs : List (Event Tables α)}
  {i : Nat} {qs : List Call} {settled : World Tables Unit → Prop}
  {K : α → List Call → World Tables Unit → Prop}
  {E : TableError → List Call → World Tables Unit → Prop}

def Event.call? : Event Tables α → Option Call
  | .call _ q _ => some q
  | _ => none

def calls (es : List (Event Tables α)) : List Call := es.filterMap Event.call?

/-- A thread is at work, and will come to a good end whichever cached heads get lost. -/
def Trying (settled : World Tables Unit → Prop) (K : α → List Call → World Tables Unit → Prop)
    (E : TableError → List Call → World Tables Unit → Prop) (i : Nat) (qs : List Call)
    (y : Pool Tables α) : Prop :=
  ∃ p, y.threads i = some p ∧ ∀ v, Near (y.world ()) v → p.Tries settled K E qs v

section Trying

variable (hK : ∀ a {qs w v}, Near w v → K a qs w → K a qs v)
  (hE : ∀ e {qs w v}, Near w v → E e qs w → E e qs v)
include hK hE

/-- Each step of the thread adds the call that it makes, if it makes one. -/
theorem Step.trying (h : Step surroundings y e z) (hactor : ∀ j, e.actor = some j → j = i)
    (hfinish : ∀ r, e ≠ .finish i r) (hsettled : ¬settled (y.world ()))
    (hy : Trying settled K E i qs y) :
    Trying settled K E i (qs ++ e.call?.toList) z := by
  obtain ⟨p, hi, hp⟩ := hy
  have hown {q : Program Tables α} (hq : y.threads i = some q) : q = p :=
    Option.some.inj (hq.symm.trans hi)
  have hhere := hp _ (.refl _)
  have hgoOn {q : Program Tables α} (hq : q.Tries settled K E qs (y.world ())) :
      Trying settled K E i (qs ++ []) (y.goOn i q) := by
    rw [List.append_nil]
    exact ⟨_, if_pos rfl, fun _ hv => hq.advance.near hK hE (point_advance q y.state) hv⟩
  cases h with
  | @start j q hj =>
    obtain rfl : j = i := hactor j rfl
    cases hj.symm.trans hi
  | @get j k hj =>
    obtain rfl : j = i := hactor j rfl
    obtain rfl := hown hj
    exact hgoOn hhere
  | @set j s k hj =>
    obtain rfl : j = i := hactor j rfl
    obtain rfl := hown hj
    exact hgoOn hhere
  | @awaited j b r k hj hr =>
    obtain rfl : j = i := hactor j rfl
    obtain rfl := hown hj
    exact hgoOn ((hhere _ (.refl _) hsettled).1 hr)
  | @gaveUp j r k hj hr =>
    obtain rfl : j = i := hactor j rfl
    obtain rfl := hown hj
    exact hgoOn ((hhere _ (.refl _) hsettled).2 hr rfl)
  | @clock j k left hj =>
    obtain rfl : j = i := hactor j rfl
    obtain rfl := hown hj
    exact hgoOn (hhere _ (.refl _) hsettled left)
  | @pause j n k hj =>
    obtain rfl : j = i := hactor j rfl
    obtain rfl := hown hj
    exact hgoOn (hhere _ (.refl _) hsettled)
  | @call j q k fate hj hf =>
    obtain rfl : j = i := hactor j rfl
    obtain rfl := hown hj
    exact ⟨_, if_pos rfl, fun u hu => hhere _ (.refl _) hsettled fate hf u hu⟩
  | @returned j a hj =>
    obtain rfl : j = i := hactor j rfl
    exact absurd rfl (hfinish _)
  | @failed j e hj =>
    obtain rfl : j = i := hactor j rfl
    exact absurd rfl (hfinish _)
  | @drift s hd =>
    obtain ⟨b, rfl⟩ := hd
    refine ⟨p, hi, fun v hv => ?_⟩
    rw [show (Event.drift : Event Tables α).call?.toList = [] from rfl, List.append_nil]
    apply hp v (Near.trans ?_ hv)
    exact ⟨rfl, _, rfl⟩

/-- As long as nothing is settled, a thread that is not done goes on trying. -/
theorem Steps.trying (h : Steps surroundings y fs z)
    (hactor : ∀ f ∈ fs, ∀ j, f.actor = some j → j = i) (hfinish : ∀ r, .finish i r ∉ fs)
    (hsettled : ∀ {es es' x}, fs = es ++ es' → Steps surroundings y es x →
      Steps surroundings x es' z → ¬settled (x.world ()))
    (hy : Trying settled K E i qs y) : Trying settled K E i (qs ++ calls fs) z := by
  induction h generalizing qs with
  | refl =>
    rw [show qs ++ calls [] = qs from List.append_nil qs]
    exact hy
  | @head y x z e fs h hs ih =>
    have hstep := h.trying hK hE (hactor e (by simp)) (fun r hr => hfinish r (by simp [hr]))
      (hsettled rfl (.refl y) (.head h hs)) hy
    have hcalls : calls (e :: fs) = e.call?.toList ++ calls fs := by
      unfold calls
      cases he : e.call? <;> simp [he]
    rw [hcalls, ← List.append_assoc]
    apply ih _ _ _ hstep
    · exact fun f hf => hactor f (by simp [hf])
    · exact fun r hr => hfinish r (by simp [hr])
    · intro es es' u hes hu hz
      exact hsettled (by rw [hes, List.cons_append]) (.head h hu) hz

/-- How an operation fails if it works alone and nothing is settled before it is over. -/
theorem Steps.fails {p : Program Tables α} {error : TableError}
    (h : Steps surroundings y (.start i p :: fs ++ [.finish i (.error error)]) z)
    (hactor : ∀ f ∈ fs, ∀ j, f.actor = some j → j = i) (hfinish : ∀ r, .finish i r ∉ fs)
    (hsettled : ∀ {es es' x}, .start i p :: fs = es ++ es' → Steps surroundings y es x →
      Steps surroundings x (es' ++ [.finish i (.error error)]) z → ¬settled (x.world ()))
    (hp : ∀ v, Near (y.world ()) v → p.Tries settled K E [] v) :
    E error (calls fs) (z.world ()) := by
  cases h with
  | @head _ y' _ _ _ hstart hrest =>
    obtain ⟨x, hfs, hlast⟩ := hrest.split
    have hworld : y'.world () = y.world () := by
      cases hstart
      rfl
    have hy' : Trying settled K E i [] y' := by
      cases hstart
      exact ⟨p, if_pos rfl, hp⟩
    have hx : Trying settled K E i ([] ++ calls fs) x := by
      apply hfs.trying hK hE hactor hfinish _ hy'
      intro es es' u hes hu hx
      exact hsettled (by rw [hes, List.cons_append]) (.head hstart hu) (hx.append hlast)
    obtain ⟨q, hq, htries⟩ := hx
    cases hlast with
    | head hlast hend =>
      cases hend
      cases hlast with
      | failed hfail =>
        obtain rfl := Option.some.inj (hq.symm.trans hfail)
        exact htries _ (.refl _)

end Trying
end Pool
end KeyedLog
