import KeyedLog.Proofs.Operation.Heads
import KeyedLog.Proofs.Segment.Renewal
import KeyedLog.Proofs.Walk.Visit
import Mathlib.Data.List.Forall2

/-! Looking for a key: the chain of its bucket leads from the head to the newest entry of it. -/
namespace KeyedLog

namespace Program

variable {ι σ γ α β : Type} {N : Succession ι σ γ} {i : Nat} {E : TableError → ι → World σ γ → Prop}

/-- What each run of a loop keeps, and finds out, the whole loop does. -/
theorem abides_mapM {f : α → Program σ β} {P : ι → World σ γ → Prop}
    {Q : α → β → Prop} {l : List α}
    (hf : ∀ a ∈ l, ∀ s w, P s w → (f a).Abides N i (fun b t v => P t v ∧ Q a b) E s w) {s : ι}
    {w : World σ γ} (hw : P s w) :
    (l.mapM f).Abides N i (fun bs t v => P t v ∧ List.Forall₂ Q l bs) E s w := by
  induction l generalizing s w with
  | nil => exact ⟨hw, .nil⟩
  | cons a l ih =>
    rw [List.mapM_cons]
    refine Abides.bind ((hf a (by simp) s w hw).mono (fun b t v hb => ?_) fun _ _ _ h => h)
    have hl := ih (fun a ha => hf a (by simp [ha])) hb.1
    refine Abides.bind (hl.mono (fun bs r u hbs => ?_) fun _ _ _ h => h)
    exact ⟨hbs.1, .cons hb.2 hbs.2⟩

theorem obeys_mapM {γ : Type} {R : Rules σ γ} {E : TableError → World σ γ → Prop}
    {f : α → Program σ β} {P : World σ γ → Prop} {Q : α → β → Prop} {l : List α}
    (hf : ∀ a ∈ l, ∀ w, P w → (f a).Obeys R i (fun b v => P v ∧ Q a b) E w) {w : World σ γ}
    (hw : P w) : (l.mapM f).Obeys R i (fun bs v => P v ∧ List.Forall₂ Q l bs) E w :=
  abides_const.1 (abides_mapM (P := fun _ => P)
    (fun a ha _ v hv => abides_const.2 (hf a ha v hv)) hw)

end Program

theorem mapM_ok {ε α β : Type} {f : α → Except ε β} {l : List α} {r : List β}
    (h : l.mapM f = .ok r) : List.Forall₂ (fun a b => f a = .ok b) l r := by
  induction l generalizing r with
  | nil =>
    rw [← Except.ok.inj h]
    exact .nil
  | cons a l ih =>
    rw [List.mapM_cons] at h
    cases hb : f a with
    | error e => rw [hb] at h; cases h
    | ok b =>
      cases hbs : l.mapM f with
      | error e => rw [hb, hbs] at h; cases h
      | ok bs =>
        rw [hb, hbs] at h
        rw [← Except.ok.inj h]
        exact .cons hb (ih hbs)

theorem mapM_eq_ok {ε α β : Type} {f : α → Except ε β} {l : List α}
    (h : ∀ a ∈ l, ∃ b, f a = .ok b) : ∃ bs, l.mapM f = .ok bs := by
  induction l with
  | nil => exact ⟨[], rfl⟩
  | cons a l ih =>
    obtain ⟨b, hb⟩ := h a (by simp)
    obtain ⟨bs, hbs⟩ := ih fun a ha => h a (by simp [ha])
    refine ⟨b :: bs, ?_⟩
    rw [List.mapM_cons, hb, hbs]
    rfl

theorem exists_of_forall₂ {α β : Type} {P : α → β → Prop} {l : List α} {r : List β}
    (h : List.Forall₂ P l r) {b : β} (hb : b ∈ r) : ∃ a ∈ l, P a b := by
  induction h with
  | nil => cases hb
  | cons hab _ ih =>
    rcases List.mem_cons.1 hb with rfl | hb
    · exact ⟨_, by simp, hab⟩
    · obtain ⟨a, ha, hP⟩ := ih hb
      exact ⟨a, by simp [ha], hP⟩

namespace Site

open Program

variable {S T : Site} {i : Nat} {z : Scene} {w v u : World Tables Account}
  {log log' : List Record} {key : Bytes} {h : KeyHash} {x y : Nat} {mode : ReadMode}

/-- The chain of a bucket never leaves what can be followed. -/
theorem Linked.previous (hz : S.Coherent z) (hx : S.Linked z.ghost.toLedger z.attributes x h)
    (hy : LastBefore (S.Entry z.ghost.log · h) x (some y)) :
    S.Linked z.ghost.toLedger z.attributes y h := by
  refine ⟨hy.mem, ?_⟩
  rcases hx with ⟨he, hx | hx⟩
  · refine .inl fun ⟨j, s, e, hj, hs, hlt⟩ => hx ⟨j, s, e, hj, ?_, ?_⟩
    · exact Nat.le_trans hs (Nat.le_of_lt hy.lt)
    · exact hz.fresh_last hj hy.mem he hs hlt (Nat.le_of_lt hy.lt)
  · exact .inr (hx.of_le (Nat.le_of_lt hy.lt))

theorem Retraces.carry {s : SegmentState} (hs : S.Retraces s (S.scene w) x h)
    (hx : S.Entry w.ghost.log x h) (hc : Carries i S w T v) (hv : T.Inv v) :
    T.Retraces s (T.scene v) x h := by
  cases hc.renews
  exact hs.grow hx hc.endures hv.coherent.faithful.backpointer

theorem Linked.carry (hx : S.Linked w.ghost.toLedger (S.scene w).attributes x h)
    (hc : Carries i S w T v) : T.Linked v.ghost.toLedger (T.scene v).attributes x h := by
  cases hc.renews
  exact hx.grow hc.endures.log hc.endures.attributes hc.endures.settled

/-- The predecessor of an entry is found, and its chain leads on from there. -/
theorem abides_backpointer (hw : S.Inv w) (hrest : w.ghost.Rests i) (hi : S.calm → i = 0)
    (hx : S.Linked w.ghost.toLedger (S.scene w).attributes x h) :
    (Tables.backpointer S.config S.segment x).Abides succession i
      (fun p T v => Reading i S w T v ∧ LastBefore (S.Entry w.ghost.log · h) x p ∧
        ∀ y, p = some y → T.Linked v.ghost.toLedger (T.scene v).attributes y h)
      (fun _ T v => Reading i S w T v ∧ (S.calm → ¬S.Bounded v.ghost.log)) S w := by
  -- The predecessor counts as found once it is known to be the last before the entry.
  have hfound {p : Option Nat} {T : Site} {v : World Tables Account} (hv : Reading i S w T v)
      (hp : LastBefore (T.Entry v.ghost.log · h) x p) :
      Reading i S w T v ∧ LastBefore (S.Entry w.ghost.log · h) x p ∧
        ∀ y, p = some y → T.Linked v.ghost.toLedger (T.scene v).attributes y h := by
    have hxv := hx.carry hv.carries
    refine ⟨hv, ?_, fun y hy => Linked.previous hv.inv.coherent hxv (hy ▸ hp)⟩
    cases hv.carries.renews
    exact (lastBefore_append hv.carries.endures.log (Nat.le_of_lt hx.1.lt)).2 hp
  unfold Tables.backpointer
  rw [← LawfulMonad.bind_assoc]
  refine Abides.bind (abides_of_within (fun _ => .consult) hw
    (obeys_consult hw hrest.fresh hrest.recoverer hi hx) ?_ ?_)
  · rintro s v hv ⟨hwv, hs⟩
    have hread : Reading i S w S v := ⟨hv, hwv.rests hrest, .of_minds hwv⟩
    have hxv := hx.carry hread.carries
    refine ⟨hread.rests, fun T u hu hvu => ?_⟩
    have hu' := hread.go hu hvu
    have hxu := hxv.carry hvu.toCarries
    have hs := hs.carry hxv.1 hvu.toCarries hu
    cases hp : s.backpointers[x]? with
    | some p =>
      unfold Retraces at hs
      rw [hp] at hs
      exact hfound hu' hs
    | none =>
      cases hvu.renews
      refine abides_attributeOf _ hu'.rests (fun U t V r ht hut hr htr => ?_) ?_
      · have hst := hs.carry hxu.1 hut.toCarries ht
        unfold Retraces at hst
        rw [hp] at hst
        have hxt := hxu.carry hut.toCarries
        refine hfound ((hu'.go ht hut).go hr htr) ?_
        cases htr.renews
        exact (lastBefore_append htr.endures.log (Nat.le_of_lt hxt.1.lt)).1 hst
      · intro e U r hc hr hur
        exact ⟨hu'.go hr hur, fun hc' => absurd hc' hc⟩
  · rintro e v hv ⟨hwv, hbad⟩
    have hread : Reading i S w S v := ⟨hv, hwv.rests hrest, .of_minds hwv⟩
    refine ⟨hread.rests, fun T u hu hvu => ⟨hread.go hu hvu, fun hc hb => ?_⟩⟩
    exact hbad hc (hb.of_prefix hvu.endures.log)

theorem abides_visit {r : Record} (hw : S.Inv w) (hrest : w.ghost.Rests i)
    (hr : (x, r) ∈ Log.placed 0 w.ghost.log) :
    (Walk.visit mode S.segment key x).Abides succession i
      (fun o T v => Reading i S w T v ∧ o = Walk.answerOf mode key x r)
      (fun _ T v => Reading i S w T v ∧ ¬S.calm) S w := by
  have hvalid : r.Valid := (hw.coherent.wellformed r (Log.mem_of_mem_placed hr)).1
  have hread {T : Site} {v : World Tables Account} (hv : Reading i S w T v) {k : Nat}
      (hk : k ≤ r.length) : ∃ rest, T.Looks (.read S.segment x k) v
        ((r.encode recordChecksum ++ rest).take k) := by
    have hrv := Log.mem_placed_of_prefix hv.carries.endures.log hr
    have hbound : x + r.length ≤ 0 + Log.size v.ghost.log := (Log.placed_bounds hrv).2
    obtain ⟨rest, hrest⟩ := Log.slice_record recordChecksum (k := k) hrv
    have hle : x + k ≤ Log.size v.ghost.log := by omega
    cases hv.carries.renews
    exact ⟨rest, hrest ▸ looks_read hv.inv.stores hle⟩
  unfold Walk.visit
  have hstart : Reading i S w S w := .refl hw hrest
  refine abides_request_bind (.read S.segment x headerLength) hrest (by simp)
    (fun T v hv hwv => ?_) fun e U u hc hu hwu => ⟨hstart.go hu hwu, hc⟩
  obtain ⟨rest, hlook⟩ := hread (hstart.go hv hwv) r.headerLength_le_length
  refine ⟨_, hlook, fun U u hu hvu => ?_⟩
  have hu' := (hstart.go hv hwv).go hu hvu
  rw [Walk.decode_start hvalid rest]
  refine Abides.bind ?_
  change Abides _ _ _ _ (ofExcept (.ok (r.header recordChecksum)) : Program Tables Header) U u
  rw [abides_ofExcept_ok, Record.header_keyLength recordChecksum hvalid.writable]
  split
  · next hne => exact ⟨hu', (Walk.answerOf_of_ne mode fun hk => hne (by rw [hk])).symm⟩
  · have hext := Walk.extent_le mode hvalid
    refine abides_request_bind (.read S.segment x (Walk.extent mode (r.header recordChecksum)))
      hu'.rests (by simp) (fun V t ht hut => ?_) fun e V t hc ht hut => ?_
    · obtain ⟨rest, hlook⟩ := hread (hu'.go ht hut) hext
      refine ⟨_, hlook, fun B b hb htb => ?_⟩
      rw [Walk.judge_eq mode hvalid rest]
      exact ⟨(hu'.go ht hut).go hb htb, rfl⟩
    · exact ⟨hu'.go ht hut, fun hc' => hc (hu'.carries.renews.calm.2 hc')⟩

/-- There is an entry of a key within reach. -/
def About (S : Site) (log : List Record) (key : Bytes) (h : KeyHash) (x : Nat) : Prop :=
  S.Entry log x h ∧ ∃ r, (x, r) ∈ Log.placed 0 log ∧ r.key = key

theorem About.mono (hl : log <+: log') (hx : S.About log key h x) : S.About log' key h x := by
  obtain ⟨he, r, hr, hk⟩ := hx
  exact ⟨he.mono hl, r, Log.mem_placed_of_prefix hl hr, hk⟩

theorem About.lastBefore (hx : S.About log key h x) :
    LastBefore (S.About log key h) (x + 1) (some x) :=
  LastBefore.some_iff.2 ⟨hx, Nat.lt_succ_self x, fun _ _ hy => Nat.le_of_lt_succ hy⟩

theorem About.of_lt (hl : log <+: log') (hx : S.About log' key h x) (hlt : x < Log.size log) :
    S.About log key h x := by
  obtain ⟨he, r, hr, hk⟩ := hx
  exact ⟨he.of_lt hl hlt, r, Log.mem_placed_of_lt hl hr hlt, hk⟩

end Site

/-- What is found if the entry of a key at an offset counts, or none does. -/
def Tells (log : List Record) (mode : ReadMode) (key : Bytes) :
    Option Nat → Option Found → Prop
  | none, o => o = none
  | some x, o => ∃ r, (x, r) ∈ Log.placed 0 log ∧ r.key = key ∧
      o = r.value?.map fun v => ⟨key, match mode with | .key => none | .entry => some v, x⟩

theorem Tells.mono {log log' : List Record} {mode : ReadMode} {key : Bytes} {q : Option Nat}
    {o : Option Found} (hl : log <+: log') (ht : Tells log mode key q o) :
    Tells log' mode key q o := by
  cases q with
  | none => exact ht
  | some x =>
    obtain ⟨r, hr, hk, ho⟩ := ht
    exact ⟨r, Log.mem_placed_of_prefix hl hr, hk, ho⟩

theorem Tells.of_lt {log log' : List Record} {mode : ReadMode} {key : Bytes} {q : Option Nat}
    {o : Option Found} (hl : log <+: log') (ht : Tells log' mode key q o)
    (hlt : ∀ x, q = some x → x < Log.size log) : Tells log mode key q o := by
  cases q with
  | none => exact ht
  | some x =>
    obtain ⟨r, hr, hk, ho⟩ := ht
    exact ⟨r, Log.mem_placed_of_lt hl hr (hlt x rfl), hk, ho⟩

namespace Site

open Program

variable {S T : Site} {i : Nat} {z : Scene} {w v u : World Tables Account}
  {log log' : List Record} {key : Bytes} {h : KeyHash} {x y : Nat} {mode : ReadMode}

/-- A walk that goes on from an entry about another key ends at the same entry of the key. -/
theorem about_widen (hl : log <+: log') {r : Record} (hx : (x, r) ∈ Log.placed 0 log)
    (hr : r.key ≠ key) {p : Nat} (hp : LastBefore (S.Entry log · h) x (some p)) {q : Option Nat}
    (hq : LastBefore (S.About log' key h) (p + 1) q) :
    LastBefore (S.About log key h) (x + 1) q := by
  have hlt := hp.lt
  have hsize := Log.placed_lt hx
  have hq' : LastBefore (S.About log key h) (p + 1) q :=
    hq.congr fun y hy => ⟨fun ha => ha.of_lt hl (by omega), fun ha => ha.mono hl⟩
  refine hq'.widen (by omega) fun y hy hyx => ?_
  by_cases hxy : y = x
  · subst hxy
    obtain ⟨r', hr', hk⟩ := hy.2
    exact absurd (Log.placed_unique hx hr' ▸ hk) hr
  · have := hp.le hy.1 (by omega)
    omega

/-- The entry at hand decides, unless it is about another key. -/
theorem abides_visit_bind {r : Record} {f : Program Tables (Option Found)}
    {K : Option Found → Site → World Tables Account → Prop}
    {E : TableError → Site → World Tables Account → Prop} (hw : S.Inv w)
    (hrest : w.ghost.Rests i) (hr : (x, r) ∈ Log.placed 0 w.ghost.log)
    (hK : ∀ o T v, Reading i S w T v → r.key = key → Tells w.ghost.log mode key (some x) o →
      K o T v)
    (hf : ∀ T v, Reading i S w T v → r.key ≠ key → f.Abides succession i K E T v)
    (hE : ∀ e T v, Reading i S w T v → ¬S.calm → E e T v) :
    (Walk.visit mode S.segment key x >>= fun a => match a with
      | .found entry => pure (some entry)
      | .removed => pure none
      | .other => f).Abides succession i K E S w := by
  refine Abides.bind ((abides_visit hw hrest hr).mono ?_
    fun e T v h => hE e T v h.1 h.2)
  rintro _ T v ⟨hv, rfl⟩
  by_cases hk : r.key = key
  · have htell : Tells w.ghost.log mode key (some x) (r.value?.map fun v =>
        ⟨key, match mode with | .key => none | .entry => some v, x⟩) := ⟨r, hr, hk, rfl⟩
    unfold Walk.answerOf
    rw [if_pos hk]
    cases hval : r.value? with
    | none =>
      rw [hval] at htell
      exact hK _ T v hv hk htell
    | some value =>
      rw [hval] at htell
      exact hK _ T v hv hk htell
  · rw [Walk.answerOf_of_ne mode hk]
    exact hf T v hv hk

/-- From an entry on, the newest entry of the key is found. -/
theorem abides_findFrom {left hops : Nat} (hw : S.Inv w) (hrest : w.ghost.Rests i)
    (hi : S.calm → i = 0) (hx : S.Linked w.ghost.toLedger (S.scene w).attributes x h)
    (hleft : S.calm → S.Bounded w.ghost.log →
      Log.rank S.config.hasher w.ghost.log h x < left) :
    (Walk.findFrom mode S.segment (Tables.backpointer S.config S.segment) key left hops x).Abides
      succession i
      (fun o T v => Reading i S w T v ∧
        ∃ q, LastBefore (S.About w.ghost.log key h) (x + 1) q ∧ Tells w.ghost.log mode key q o)
      (fun _ T v => Reading i S w T v ∧ (S.calm → ¬S.Bounded v.ghost.log)) S w := by
  induction left generalizing S hops x w with
  | zero =>
    obtain ⟨⟨r, hr, -⟩, -⟩ := hx.1
    unfold Walk.findFrom
    refine abides_visit_bind hw hrest hr (fun o T v hv hk ht => ?_) (fun T v hv _ => ?_) ?_
    · exact ⟨hv, some x, About.lastBefore ⟨hx.1, r, hr, hk⟩, ht⟩
    · refine ⟨hv, fun hc hb => ?_⟩
      exact absurd (hleft hc (hb.of_prefix hv.carries.endures.log)) (Nat.not_lt_zero _)
    · exact fun e T v hv hc => ⟨hv, fun hc' => absurd hc' hc⟩
  | succ left ih =>
    obtain ⟨⟨r, hr, -⟩, -⟩ := hx.1
    unfold Walk.findFrom
    refine abides_visit_bind hw hrest hr (fun o T v hv hk ht => ?_) (fun T v hv hk => ?_) ?_
    · exact ⟨hv, some x, About.lastBefore ⟨hx.1, r, hr, hk⟩, ht⟩
    · have hxv := hx.carry hv.carries
      cases hv.carries.renews
      refine Abides.bind ?_
      refine (abides_backpointer hv.inv hv.rests hi hxv).mono ?_ ?_
      · rintro p U u ⟨hu, hlast, hlinked⟩
        have hwu := hv.trans hu
        -- Whatever was appended in the meantime comes behind the entry.
        have hlast : LastBefore (S.Entry w.ghost.log · h) x p :=
          (lastBefore_append hv.carries.endures.log (Nat.le_of_lt hx.1.lt)).2 hlast
        cases p with
        | none =>
          refine ⟨hwu, none, LastBefore.none_iff.2 fun y hy hyx => ?_, rfl⟩
          by_cases hxy : y = x
          · subst hxy
            obtain ⟨r', hr', hk'⟩ := hy.2
            exact hk (Log.placed_unique hr hr' ▸ hk')
          · exact LastBefore.none_iff.1 hlast y hy.1 (by omega)
        | some p =>
          have hlt := hlast.lt
          have hlog := hwu.carries.endures.log
          dsimp only
          rw [if_pos hlt]
          cases hu.carries.renews
          refine (ih hu.inv hu.rests hi (hlinked p rfl) fun hc hb => ?_).mono ?_ ?_
          · have hsame : u.ghost.log = w.ghost.log := hwu.carries.alone hc (hi hc)
            rw [hsame] at hb ⊢
            have := hleft hc hb
            have := Log.rank_lt_rank hlast.mem.1 hlt
            change Log.rank S.config.hasher w.ghost.log h p < left
            omega
          · rintro o V t ⟨ht, q, hq, htell⟩
            have hq' := about_widen hlog hr hk hlast hq
            exact ⟨hwu.trans ht, q, hq', htell.of_lt hlog fun y hy => (hq'.1 y hy).1.1.lt⟩
          · rintro e V t ⟨ht, hbad⟩
            exact ⟨hwu.trans ht, hbad⟩
      · rintro e U u ⟨hu, hbad⟩
        exact ⟨hv.trans hu, hbad⟩
    · exact fun e T v hv hc => ⟨hv, fun hc' => absurd hc' hc⟩

/-- The entry that an answer is about is at least as new as what was settled in a scene. -/
def Answers (S : Site) (z : Scene) (log : List Record) (mode : ReadMode) (key : Bytes)
    (o : Option Found) : Prop :=
  ∃ h q, S.config.hasher.hash key = .ok h ∧ (∀ y, q = some y → S.About log key h y) ∧
    (∀ y, z.ghost.Settled y → S.About z.ghost.log key h y → ∃ x, q = some x ∧ y ≤ x) ∧
    Tells log mode key q o

theorem Answers.mono {o : Option Found} (hl : log <+: log') (ha : S.Answers z log mode key o) :
    S.Answers z log' mode key o := by
  obtain ⟨h, q, hh, hq, hold, ht⟩ := ha
  exact ⟨h, q, hh, fun y hy => (hq y hy).mono hl, hold, ht.mono hl⟩

/-- A single key is looked up from the head of its bucket. -/
theorem abides_lookupFrom {heads : Heads} (hw : S.Inv w) (hrest : w.ghost.Rests i)
    (hi : S.calm → i = 0) (hl : log <+: w.ghost.log) (hz : z.ghost.log <+: log)
    (hh : S.config.hasher.hash key = .ok h) (ho : S.Begins z (S.scene w) h heads[h]?)
    (hlt : ∀ y, heads[h]? = some y → y < Log.size log) :
    (match heads[h]? with
      | some head => Walk.find mode S.segment (Tables.backpointer S.config S.segment)
          S.config.maxChainLength key head
      | none => return none : Program Tables (Option Found)).Abides succession i
      (fun r T v => Reading i S w T v ∧ S.Answers z log mode key r)
      (fun _ T v => Reading i S w T v ∧ (S.calm → ¬S.Bounded v.ghost.log)) S w := by
  generalize heads[h]? = o at ho hlt ⊢
  cases o with
  | none =>
    exact ⟨.refl hw hrest, h, none, hh, fun y hy => (by cases hy), fun y hy ha =>
      absurd ha.1 (ho y hy), rfl⟩
  | some head =>
    have hlt := hlt head rfl
    refine (abides_findFrom hw hrest hi ho.1 fun _ hb => ?_).mono ?_ fun _ _ _ h => h
    · exact Nat.lt_of_lt_of_le (Log.rank_lt_length ho.1.1.1) (hb h)
    · rintro r T v ⟨hv, q, hq, ht⟩
      have hq' : LastBefore (S.About log key h) (head + 1) q :=
        hq.congr fun y hy => ⟨fun ha => ha.of_lt hl (by omega), fun ha => ha.mono hl⟩
      refine ⟨hv, h, q, hh, fun y hy => (hq'.1 y hy).1, fun y hy ha => ?_, ?_⟩
      · exact hq'.2 y (ha.mono hz) (Nat.lt_succ_of_le (ho.2 y hy ha.1))
      · exact ht.of_lt hl fun y hy => (hq'.1 y hy).1.1.lt

theorem Begins.carry {o : Option Nat} (hb : S.Begins z (S.scene w) h o) (hc : Carries i S w T v) :
    T.Begins z (T.scene v) h o := by
  cases hc.renews
  exact hb.grow hc.endures

/-- Every key is answered on its own, from where its bucket began before the first of them. -/
theorem abides_lookupEach {heads : Heads} {pairs : List (Bytes × KeyHash)} (hw : S.Inv w)
    (hrest : w.ghost.Rests i) (hi : S.calm → i = 0) (hz : z.ghost.log <+: w.ghost.log)
    (hpairs : ∀ e ∈ pairs, S.config.hasher.hash e.1 = .ok e.2 ∧
      S.Begins z (S.scene w) e.2 heads[e.2]?) :
    (pairs.mapM (m := Program Tables) fun (key, h) => match heads[h]? with
      | some head => Walk.find mode S.segment (Tables.backpointer S.config S.segment)
          S.config.maxChainLength key head
      | none => return none).Abides succession i
      (fun os T v => Reading i S w T v ∧
        List.Forall₂ (fun e o => S.Answers z w.ghost.log mode e.1 o) pairs os)
      (fun _ T v => Reading i S w T v ∧ (S.calm → ¬S.Bounded v.ghost.log)) S w := by
  refine abides_mapM (P := fun T v => Reading i S w T v) ?_ (.refl hw hrest)
  rintro ⟨key, h⟩ hk T v hv
  obtain ⟨hh, hbegin⟩ := hpairs _ hk
  have hlt (y : Nat) (hy : heads[h]? = some y) : y < Log.size w.ghost.log := by
    rw [hy] at hbegin
    exact hbegin.1.1.lt
  have hbegin := hbegin.carry hv.carries
  cases hv.carries.renews
  refine (abides_lookupFrom hv.inv hv.rests hi hv.carries.endures.log hz hh hbegin hlt).mono ?_ ?_
  · rintro o U u ⟨hu, ha⟩
    exact ⟨hv.trans hu, ha⟩
  · rintro e U u ⟨hu, hbad⟩
    exact ⟨hv.trans hu, hbad⟩

theorem abides_lookup {keys : List Bytes} (hw : S.Inv w) (hrest : w.ghost.Rests i)
    (hi : S.calm → i = 0) :
    (Tables.lookup S.config mode S.name keys).Abides succession i
      (fun os T v => Reading i S w T v ∧
        List.Forall₂ (S.Answers (S.scene w) v.ghost.log mode) keys os)
      (fun e T v => Reading i S w T v ∧ (S.calm → ¬S.Bounded v.ghost.log ∨
        keys.mapM S.config.hasher.hash = .error e)) S w := by
  have hread : Reading i S w S w := .refl hw hrest
  unfold Tables.lookup
  refine Abides.bind (abides_checkOpen hw ?_)
  split
  · next hempty =>
    rw [List.isEmpty_iff.1 hempty]
    exact ⟨hread, .nil⟩
  refine Abides.bind ?_
  cases hhashes : keys.mapM S.config.hasher.hash with
  | error e => exact ⟨hread, fun _ => .inr rfl⟩
  | ok hashes =>
    have hkeys := mapM_ok hhashes
    have hproper (h : KeyHash) (hh : h ∈ hashes.eraseDups) : h.Proper := by
      obtain ⟨key, -, hk⟩ := exists_of_forall₂ hkeys (List.mem_eraseDups.1 hh)
      exact Hasher.proper_of_hash hk
    rw [abides_ofExcept_ok]
    refine abides_request_bind (.resolve S.name) hrest (by simp)
      (fun T v hv hwv => ⟨S.segment, ?_, fun U u hu hvu => ?_⟩)
      fun e U u hc hu hwu => ⟨hread.go hu hwu, fun hc' => absurd hc' hc⟩
    · cases hwv.renews
      exact looks_resolve hv.stores
    have hu' := (hread.go hv hwv).go hu hvu
    refine Abides.bind ?_
    cases hu'.carries.renews
    have hheads := obeys_heads hu hu'.rests.fresh hu'.rests.recoverer hi hashes.eraseDups
    refine abides_of_within (fun _ => .heads) hu hheads ?_ ?_
    · rintro heads t ht ⟨-, hut, hbegins⟩
      have ht' := hu'.trans (.of_minds ht hu'.rests hut)
      refine ⟨ht'.rests, fun V b hb htb => ?_⟩
      have hb' := ht'.go hb htb
      have hpairs (e : Bytes × KeyHash) (he : e ∈ keys.zip hashes) :
          V.config.hasher.hash e.1 = .ok e.2 ∧
            V.Begins (S.scene w) (V.scene b) e.2 heads[e.2]? := by
        have hmem := List.mem_eraseDups.2 (List.of_mem_zip he).2
        have hbefore := (hbegins e.2 hmem (hproper e.2 hmem)).before hu'.carries.endures
        have hconfig : V.config = S.config := htb.renews.config
        exact ⟨hconfig ▸ List.forall₂_zip hkeys he, hbefore.carry htb.toCarries⟩
      have hlog := hb'.carries.endures.log
      cases hb'.carries.renews
      refine (abides_lookupEach hb hb'.rests hi hlog hpairs).mono ?_ ?_
      · rintro os U c ⟨hc, ha⟩
        refine ⟨hb'.trans hc, ?_⟩
        rw [← List.forall₂_map_left_iff, List.map_fst_zip (Nat.le_of_eq hkeys.length_eq)] at ha
        exact ha.imp fun key o ho => ho.mono hc.carries.endures.log
      · rintro e U c ⟨hc, hbad⟩
        exact ⟨hb'.trans hc, fun hc => .inl (hbad hc)⟩
    · rintro e t ht ⟨-, hut, hbad⟩
      have ht' := hu'.trans (.of_minds ht hu'.rests hut)
      refine ⟨ht'.rests, fun V b hb htb => ⟨ht'.go hb htb, fun hc => .inl fun hbound => ?_⟩⟩
      exact hbad hc (hbound.of_prefix htb.endures.log)

end Site
end KeyedLog
