import KeyedLog.Proofs.Run.Sessions

/-! Programs that run alone with time left, while cached heads get lost. -/
namespace KeyedLog

namespace Program

variable {σ γ α : Type}

/-- Run alone, from start to end. At each point of interruption, counted by a number, something may
happen to the state. -/
def runAmid (disturb : Nat → σ → σ) :
    Program σ α → Nat → Container → σ → Except TableError α × Nat × Container × σ
  | .ret a, n, c, s => (.ok a, n, c, s)
  | .fail e, n, c, s => (.error e, n, c, s)
  | .get k, n, c, s => (k s).runAmid disturb n c s
  | .set s k, n, c, _ => k.runAmid disturb n c s
  | .await _ ready k, n, c, s =>
    (k (ready (disturb n s))).runAmid disturb (n + 1) c (disturb n s)
  | .clock k, n, c, s => (k true).runAmid disturb (n + 1) c (disturb n s)
  | .call q k, n, c, s =>
    let (c, r) := c.perform q
    (k r).runAmid disturb (n + 1) c (disturb n s)
  | .pause _ k, n, c, s => k.runAmid disturb (n + 1) c (disturb n s)

theorem runAmid_id (p : Program σ α) (n : Nat) (c : Container) (s : σ) :
    ∃ m, p.runAmid (fun _ s => s) n c s =
      ((p.run true c s).1, m, (p.run true c s).2.1, (p.run true c s).2.2) := by
  induction p generalizing n c s with
  | ret | fail => exact ⟨n, rfl⟩
  | get k ih => exact ih s n c s
  | set t k ih => exact ih n c t
  | await b ready k ih => exact ih (ready s) (n + 1) c s
  | clock k ih => exact ih true (n + 1) c s
  | call q k ih => exact ih (c.perform q).2 (n + 1) (c.perform q).1 s
  | pause point k ih => exact ih (n + 1) c s

variable {R : Rules σ γ} {i : Nat} {K : α → World σ γ → Prop} {E : TableError → World σ γ → Prop}
  {disturb : Nat → σ → σ}

/-- A program that keeps to the rules ends well when it runs alone. -/
theorem Obeys.runAmid (hR : R.Lawful) (hl : ¬R.lapses) (hf : ∀ q, R.fates q .served)
    (hd : ∀ {n c s g}, R.inv ⟨c, s, g⟩ →
      R.inv ⟨c, disturb n s, g⟩ ∧ R.rely i ⟨c, s, g⟩ ⟨c, disturb n s, g⟩)
    {p : Program σ α} {w : World σ γ} (hw : R.inv w) (h : p.Obeys R i K E w) (n : Nat) :
    ∃ r m c s g, p.runAmid disturb n w.container w.state = (r, m, c, s) ∧
      ((∃ a, r = .ok a ∧ K a ⟨c, s, g⟩) ∨ ∃ e, r = .error e ∧ E e ⟨c, s, g⟩) := by
  induction p generalizing n w with
  | ret a => exact ⟨_, n, w.container, w.state, w.ghost, rfl, .inl ⟨a, rfl, h⟩⟩
  | fail e => exact ⟨_, n, w.container, w.state, w.ghost, rfl, .inr ⟨e, rfl, h⟩⟩
  | get k ih => exact ih w.state hw h n
  | set s k ih =>
    obtain ⟨g, hg, hk⟩ := h
    exact @ih ⟨w.container, s, g⟩ hg.1 hk n
  | await b ready k ih =>
    obtain ⟨hv, hr⟩ := hd (n := n) hw
    have hk := h.2 _ hv hr
    have hready : ready (disturb n w.state) = true := by
      cases hm : ready (disturb n w.state) with
      | true => rfl
      | false => exact absurd (hk.2 hm).1 hl
    unfold Program.runAmid
    rw [hready]
    exact ih true hv (hk.1 hready) (n + 1)
  | clock k ih =>
    obtain ⟨hv, hr⟩ := hd (n := n) hw
    exact ih true hv (h.2 _ hv hr).1 (n + 1)
  | call q k ih =>
    obtain ⟨hv, hr⟩ := hd (n := n) hw
    obtain ⟨g, hg, hk⟩ := h.2 _ hv hr .served (hf q)
    exact ih _ hg.1 (hk _ hg.1 (hR.refl _ _)) (n + 1)
  | pause point k ih =>
    obtain ⟨hv, hr⟩ := hd (n := n) hw
    exact ih hv (h.2 _ hv hr) (n + 1)

end Program

namespace Tables

def evict (bs : List Bucket) (t : Tables) : Tables :=
  { t with cache := bs.foldl Cache.erase t.cache }

end Tables

namespace Site

variable {S : Site} {c : Container} {t : Tables} {g : Account}

theorem inv_evictAll (bs : List Bucket) (hw : S.Inv ⟨c, t, g⟩) :
    S.Inv ⟨c, t.evict bs, g⟩ ∧
      ∀ i, S.Sees i (S.scene ⟨c, t, g⟩) (S.scene ⟨c, t.evict bs, g⟩) := by
  induction bs generalizing t with
  | nil => exact ⟨hw, fun i => .refl i _⟩
  | cons b bs ih =>
    obtain ⟨hb, hsees⟩ := inv_evict hw ⟨b, rfl⟩
    obtain ⟨hbs, hsees'⟩ := ih hb
    exact ⟨hbs, fun i => (hsees i).trans (hsees' i)⟩

theorem rests_of_calm {w : World Tables Account} (hc : S.calm) (hw : S.Inv w)
    (hr : w.ghost.Rests 0) (i : Nat) : w.ghost.Rests i := by
  by_cases hi : i = 0
  · exact hi ▸ hr
  · exact hw.coherent.calm hc i hi

theorem settled_of_rests (hr : ∀ i, g.Rests i) {x : Nat} (hx : x < Log.size g.log) :
    g.Settled x :=
  ⟨hx, fun ⟨i, _, _, hi, _⟩ => absurd ((hr i).fresh.symm.trans hi) (by simp)⟩

/-- A program that is right in calm surroundings is right whenever it runs alone. -/
theorem runAmid_of_calm {α : Type} {K : α → World Tables Account → Prop}
    {E : TableError → World Tables Account → Prop} {p : Program Tables α} (hc : S.calm)
    (hw : S.Inv ⟨c, t, g⟩) (h : p.Obeys S.rules 0 K E ⟨c, t, g⟩) (lost : Nat → List Bucket)
    (n : Nat) :
    ∃ r m c' t' g', p.runAmid (fun n => Tables.evict (lost n)) n c t = (r, m, c', t') ∧
      ((∃ a, r = .ok a ∧ K a ⟨c', t', g'⟩) ∨ ∃ e, r = .error e ∧ E e ⟨c', t', g'⟩) :=
  h.runAmid (rules_lawful S) (fun hl => hl hc) (fun _ => trivial)
    (fun {n _ _ _} hw => ⟨(inv_evictAll (lost n) hw).1, (inv_evictAll (lost n) hw).2 0⟩) hw n

theorem run_of_calm {α : Type} {K : α → World Tables Account → Prop}
    {E : TableError → World Tables Account → Prop} {p : Program Tables α} (hc : S.calm)
    (hw : S.Inv ⟨c, t, g⟩) (h : p.Obeys S.rules 0 K E ⟨c, t, g⟩) :
    ∃ r c' t' g', p.run true c t = (r, c', t') ∧
      ((∃ a, r = .ok a ∧ K a ⟨c', t', g'⟩) ∨ ∃ e, r = .error e ∧ E e ⟨c', t', g'⟩) := by
  obtain ⟨r, n, c', t', g', hrun, hpost⟩ := runAmid_of_calm hc hw h (fun _ => []) 0
  obtain ⟨m, hm⟩ := p.runAmid_id 0 c t
  change p.runAmid (fun _ t => t) 0 c t = _ at hrun
  rw [hm] at hrun
  obtain ⟨hr, -, hc', ht'⟩ := by simpa only [Prod.mk.injEq] using hrun
  exact ⟨r, c', t', g', Prod.ext hr (Prod.ext hc' ht'), hpost⟩

end Site
end KeyedLog
