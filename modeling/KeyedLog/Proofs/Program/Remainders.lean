import KeyedLog.Schedule

/-! What is left of a program at some point of its way. -/
namespace KeyedLog

namespace Program

variable {σ α β γ : Type} {p q r : Program σ α}

/-- The other one is what is left of a program at some point of its way. -/
inductive ComesTo : Program σ α → Program σ α → Prop
  | refl (p : Program σ α) : ComesTo p p
  | get {k : σ → Program σ α} {q : Program σ α} (s : σ) (h : ComesTo (k s) q) : ComesTo (.get k) q
  | set {s : σ} {k q : Program σ α} (h : ComesTo k q) : ComesTo (.set s k) q
  | await {b : Bool} {ready : σ → Bool} {k : Bool → Program σ α} {q : Program σ α} (met : Bool)
      (h : ComesTo (k met) q) : ComesTo (.await b ready k) q
  | clock {k : Bool → Program σ α} {q : Program σ α} (left : Bool) (h : ComesTo (k left) q) :
      ComesTo (.clock k) q
  | call {c : Call} {k : Except TableError c.Answer → Program σ α} {q : Program σ α}
      (r : Except TableError c.Answer) (h : ComesTo (k r) q) : ComesTo (.call c k) q
  | pause {n : Nat} {k q : Program σ α} (h : ComesTo k q) : ComesTo (.pause n k) q

/-- Waits for something, be it an answer or only its turn. -/
def Suspended : Program σ α → Prop
  | .await .. | .clock _ | .call .. | .pause .. => True
  | .ret _ | .fail _ | .get _ | .set .. => False

def Over (p : Program σ α) : Prop := ∃ r, p = ofExcept r

/-- What a program goes on as, unless it waits for an answer. -/
inductive Resumes : Program σ α → Program σ α → Prop
  | get (k : σ → Program σ α) : Resumes (.get k) (.get k)
  | set (s : σ) (k : Program σ α) : Resumes (.set s k) (.set s k)
  | await {b : Bool} {ready : σ → Bool} {k : Bool → Program σ α} (met : Bool) :
      Resumes (.await b ready k) (k met)
  | clock {k : Bool → Program σ α} (left : Bool) : Resumes (.clock k) (k left)
  | pause {n : Nat} {k : Program σ α} : Resumes (.pause n k) k

theorem suspended_or_over_advance (p : Program σ α) (s : σ) :
    (p.advance s).1.Suspended ∨ (p.advance s).1.Over := by
  induction p generalizing s with
  | ret a => exact .inr ⟨.ok a, rfl⟩
  | fail e => exact .inr ⟨.error e, rfl⟩
  | get k ih => exact ih s s
  | set t k ih => exact ih t
  | await | clock | call | pause => exact .inl trivial

theorem ComesTo.trans (h : p.ComesTo q) (h' : q.ComesTo r) : p.ComesTo r := by
  induction h with
  | refl => exact h'
  | get s _ ih => exact .get s (ih h')
  | set _ ih => exact .set (ih h')
  | await met _ ih => exact .await met (ih h')
  | clock left _ ih => exact .clock left (ih h')
  | call r _ ih => exact .call r (ih h')
  | pause _ ih => exact .pause (ih h')

/-- Of two programs in a row, one is under way. -/
theorem ComesTo.of_bind {f : α → Program σ β} {q : Program σ β} (h : (p.bind f).ComesTo q) :
    (∃ p', p.ComesTo p' ∧ q = p'.bind f) ∨ ∃ a, (f a).ComesTo q := by
  have hstep {p p' : Program σ α} (hp : ∀ q', p'.ComesTo q' → p.ComesTo q')
      (h : (∃ q', p'.ComesTo q' ∧ q = q'.bind f) ∨ ∃ a, (f a).ComesTo q) :
      (∃ q', p.ComesTo q' ∧ q = q'.bind f) ∨ ∃ a, (f a).ComesTo q :=
    h.imp_left fun ⟨q', hq', he⟩ => ⟨q', hp q' hq', he⟩
  induction p with
  | ret a => exact .inr ⟨a, h⟩
  | fail e => exact .inl ⟨.fail e, .refl _, by cases h; rfl⟩
  | get k ih =>
    cases h with
    | refl => exact .inl ⟨.get k, .refl _, rfl⟩
    | get s h => exact hstep (fun _ => .get s) (ih s h)
  | set s k ih =>
    cases h with
    | refl => exact .inl ⟨.set s k, .refl _, rfl⟩
    | set h => exact hstep (fun _ => .set) (ih h)
  | await b ready k ih =>
    cases h with
    | refl => exact .inl ⟨.await b ready k, .refl _, rfl⟩
    | await met h => exact hstep (fun _ => .await met) (ih met h)
  | clock k ih =>
    cases h with
    | refl => exact .inl ⟨.clock k, .refl _, rfl⟩
    | clock left h => exact hstep (fun _ => .clock left) (ih left h)
  | call c k ih =>
    cases h with
    | refl => exact .inl ⟨.call c k, .refl _, rfl⟩
    | call r h => exact hstep (fun _ => .call r) (ih r h)
  | pause n k ih =>
    cases h with
    | refl => exact .inl ⟨.pause n k, .refl _, rfl⟩
    | pause h => exact hstep (fun _ => .pause) (ih h)

theorem attempt_bind_ofExcept (p : Program σ α) : p.attempt.bind ofExcept = p := by
  induction p with
  | ret | fail => rfl
  | get k ih => exact congrArg Program.get (funext ih)
  | set s k ih => exact congrArg (Program.set s) ih
  | await b ready k ih => exact congrArg (Program.await b ready) (funext ih)
  | clock k ih => exact congrArg Program.clock (funext ih)
  | call c k ih => exact congrArg (Program.call c) (funext ih)
  | pause n k ih => exact congrArg (Program.pause n) ih

theorem attempt_bind_attempt (p : Program σ α) (f : Except TableError α → Program σ β) :
    (p.attempt.bind f).attempt = p.attempt.bind fun r => (f r).attempt := by
  induction p with
  | ret | fail => rfl
  | get k ih => exact congrArg Program.get (funext ih)
  | set s k ih => exact congrArg (Program.set s) ih
  | await b ready k ih => exact congrArg (Program.await b ready) (funext ih)
  | clock k ih => exact congrArg Program.clock (funext ih)
  | call c k ih => exact congrArg (Program.call c) (funext ih)
  | pause n k ih => exact congrArg (Program.pause n) ih

theorem bind_eq_attempt_bind (p : Program σ α) (f : α → Program σ β) :
    p.bind f = p.attempt.bind fun r => (ofExcept r).bind f := by
  conv => lhs; rw [← attempt_bind_ofExcept p]
  exact bind_assoc ..

/-- The program is on its way through another one, and goes on with what that answers. -/
def Within (p : Program σ β) (whole : Program σ α) (f : α → Program σ β) : Prop :=
  ∃ q, whole.ComesTo q ∧ ¬q.Over ∧ p = q.bind f

theorem Within.bind {p : Program σ β} {whole : Program σ α} {f : α → Program σ β}
    (h : p.Within whole f) (g : β → Program σ γ) :
    (p.bind g).Within whole fun a => (f a).bind g := by
  obtain ⟨q, hq, hover, rfl⟩ := h
  exact ⟨q, hq, hover, bind_assoc q f g⟩

theorem within_of_comesTo (h : p.ComesTo q) (hq : ¬q.Over) : q.Within p .ret :=
  ⟨q, h, hq, (bind_ret q).symm⟩

end Program
end KeyedLog
