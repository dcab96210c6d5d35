import KeyedLog.Proofs.Walk.VisitAnywhere
import Mathlib.Data.List.Basic

/-! Walks along a bucket, whatever its bytes and its backpointers are: where they lead, how they
end, and what it matters whether values are read on the way. -/
namespace KeyedLog

open Program

namespace Walk

variable {c : Container} {segment : Nat} {mode : ReadMode} {key : Bytes} {x : Nat}

def noting (f : Nat → Except TableError (Option Nat)) (x : Nat) :
    Program (List Nat) (Option Nat) := do
  modify (· ++ [x])
  Program.ofExcept (f x)

theorem runs_noting {f : Nat → Except TableError (Option Nat)} {r : Except TableError (Option Nat)}
    (hf : f x = r) (asked : List Nat) : (noting f x).Runs c asked [] r c (asked ++ [x]) := by
  have h : (Program.ofExcept (f x)).Runs c (asked ++ [x]) [] (f x) c (asked ++ [x]) :=
    runs_ofExcept (f x)
  rw [← hf]
  exact ⟨h.run, h.calls⟩

/-- From the head of a bucket, a walk passes some entries, all about other keys, and comes to one.
-/
inductive Trail (c : Container) (segment : Nat) (mode : ReadMode) (key : Bytes)
    (f : Nat → Except TableError (Option Nat)) (head : Nat) : List Nat → Nat → Prop
  | start : Trail c segment mode key f head [] head
  | next {passed : List Nat} {x y : Nat} (ht : Trail c segment mode key f head passed x)
    (hother : Sees c segment key x mode (.ok .other)) (hf : f x = .ok (some y)) (hlt : y < x) :
    Trail c segment mode key f head (passed ++ [x]) y

/-- How a walk that has passed some entries ends at the next one, and for which entries it was then
asked what comes before them. -/
inductive Ends (c : Container) (segment : Nat) (key : Bytes)
    (f : Nat → Except TableError (Option Nat)) (maxHops : Nat) (passed : List Nat) (x : Nat) :
    ReadMode → Except TableError (Option Found) → List Nat → Prop
  | found {mode : ReadMode} {entry : Found} (h : Sees c segment key x mode (.ok (.found entry))) :
    Ends c segment key f maxHops passed x mode (.ok (some entry)) passed
  | removed {mode : ReadMode} (h : Sees c segment key x mode (.ok .removed)) :
    Ends c segment key f maxHops passed x mode (.ok none) passed
  | unreadable {mode : ReadMode} {e : TableError} (h : Sees c segment key x mode (.error e)) :
    Ends c segment key f maxHops passed x mode (.error e) passed
  | tooLong {mode : ReadMode} (h : Sees c segment key x mode (.ok .other))
    (hn : passed.length = maxHops) :
    Ends c segment key f maxHops passed x mode
      (.error (.corruptedBucket x (passed.length + 1))) passed
  | oldest {mode : ReadMode} (h : Sees c segment key x mode (.ok .other))
    (hn : passed.length < maxHops) (hf : f x = .ok none) :
    Ends c segment key f maxHops passed x mode (.ok none) (passed ++ [x])
  | unlinked {mode : ReadMode} {e : TableError} (h : Sees c segment key x mode (.ok .other))
    (hn : passed.length < maxHops) (hf : f x = .error e) :
    Ends c segment key f maxHops passed x mode (.error e) (passed ++ [x])
  | forward {mode : ReadMode} {y : Nat} (h : Sees c segment key x mode (.ok .other))
    (hn : passed.length < maxHops) (hf : f x = .ok (some y)) (hle : x ≤ y) :
    Ends c segment key f maxHops passed x mode
      (.error (.corruptedBucket x (passed.length + 1))) (passed ++ [x])

variable {f : Nat → Except TableError (Option Nat)} {head maxHops : Nat} {passed asked : List Nat}
  {qs : List Call} {r : Except TableError (Option Found)}

/-- A walk goes on from the entry that it has come to. -/
theorem Trail.runs (ht : Trail c segment mode key f head passed x) (hn : passed.length ≤ maxHops)
    (h : (findFrom mode segment (noting f) key (maxHops - passed.length) passed.length x).Runs
      c passed qs r c asked) :
    (find mode segment (noting f) maxHops key head).Runs c []
      (passed.flatMap (looks c segment mode key) ++ qs) r c asked := by
  induction ht generalizing qs with
  | start => exact h
  | @next passed x y ht hother hf hlt ih =>
    rw [List.length_append, List.length_singleton] at hn h
    rw [List.flatMap_append, List.flatMap_singleton, List.append_assoc]
    refine ih (by omega) ?_
    obtain ⟨left, hleft⟩ := Nat.exists_eq_add_of_le hn
    rw [hleft, show passed.length + 1 + left - passed.length = left + 1 by omega]
    rw [hleft, show passed.length + 1 + left - (passed.length + 1) = left by omega] at h
    unfold findFrom
    refine (hother.runs passed).bind ((runs_noting hf passed).nil_bind ?_)
    dsimp only
    rw [if_pos hlt]
    exact h

/-- Where a walk ends, it takes one more look. -/
theorem Ends.runs (h : Ends c segment key f maxHops passed x mode r asked) :
    (findFrom mode segment (noting f) key (maxHops - passed.length) passed.length x).Runs
      c passed (looks c segment mode key x) r c asked := by
  have hleft (hn : passed.length < maxHops) : ∃ left, maxHops - passed.length = left + 1 :=
    Nat.exists_eq_succ_of_ne_zero (Nat.sub_ne_zero_of_lt hn)
  cases h with
  | found h =>
    unfold findFrom
    exact (h.runs passed).bind_nil (runs_pure _)
  | removed h =>
    unfold findFrom
    exact (h.runs passed).bind_nil (runs_pure _)
  | unreadable h =>
    unfold findFrom
    exact (h.runs passed).bind_error
  | tooLong h hn =>
    rw [hn, Nat.sub_self]
    unfold findFrom
    exact (h.runs passed).bind_nil (runs_ofExcept (.error _))
  | oldest h hn hf =>
    obtain ⟨left, hleft⟩ := hleft hn
    rw [hleft]
    unfold findFrom
    exact (h.runs passed).bind_nil ((runs_noting hf passed).bind_nil (runs_pure _))
  | unlinked h hn hf =>
    obtain ⟨left, hleft⟩ := hleft hn
    rw [hleft]
    unfold findFrom
    exact (h.runs passed).bind_nil (runs_noting hf passed).bind_error
  | forward h hn hf hle =>
    obtain ⟨left, hleft⟩ := hleft hn
    rw [hleft]
    unfold findFrom
    refine (h.runs passed).bind_nil ((runs_noting hf passed).bind_nil ?_)
    dsimp only
    rw [if_neg (Nat.not_lt.2 hle)]
    exact runs_ofExcept (.error _)

/-- Each hop leads to a smaller offset, so a walk ends. -/
theorem Trail.exists_ends (ht : Trail c segment mode key f head passed x)
    (hn : passed.length ≤ maxHops) : ∃ passed y r asked,
    Trail c segment mode key f head passed y ∧ passed.length ≤ maxHops ∧
      Ends c segment key f maxHops passed y mode r asked := by
  induction x using Nat.strongRecOn generalizing passed with
  | _ x ih =>
    obtain ⟨r, hr, -⟩ := exists_sees c segment mode key x
    match r with
    | .error e => exact ⟨passed, x, _, _, ht, hn, .unreadable hr⟩
    | .ok (.found entry) => exact ⟨passed, x, _, _, ht, hn, .found hr⟩
    | .ok .removed => exact ⟨passed, x, _, _, ht, hn, .removed hr⟩
    | .ok .other =>
      rcases Nat.eq_or_lt_of_le hn with heq | hlt
      · exact ⟨passed, x, _, _, ht, hn, .tooLong hr heq⟩
      cases hf : f x with
      | error e => exact ⟨passed, x, _, _, ht, hn, .unlinked hr hlt hf⟩
      | ok p =>
        cases p with
        | none => exact ⟨passed, x, _, _, ht, hn, .oldest hr hlt hf⟩
        | some y =>
          by_cases hy : y < x
          · have hnext : (passed ++ [x]).length ≤ maxHops := by
              rw [List.length_append, List.length_singleton]
              omega
            exact ih y hy (ht.next hr hf hy) hnext
          · exact ⟨passed, x, _, _, ht, hn, .forward hr hlt hf (Nat.not_lt.1 hy)⟩

theorem Ends.asks (h : Ends c segment key f maxHops passed x mode r asked) :
    asked = passed ∨ passed.length < maxHops ∧ asked = passed ++ [x] := by
  cases h with
  | found | removed | unreadable | tooLong => exact .inl rfl
  | oldest _ hn _ | unlinked _ hn _ | forward _ hn _ _ => exact .inr ⟨hn, rfl⟩

theorem Trail.run (ht : Trail c segment mode key f head passed x) (hn : passed.length ≤ maxHops)
    (h : Ends c segment key f maxHops passed x mode r asked) :
    (find mode segment (noting f) maxHops key head).run true c [] = (r, c, asked) :=
  (ht.runs hn h.runs).run

/-- A walk ends, whatever the bytes of the segment and the backpointers are. It visits one entry
more than there may be hops at most, and asks for the backpointer of each at most once. It answers
with the first entry of the key on its way, with none if that is a removal or if there is no such
entry, and fails if an entry or a backpointer cannot be told, or if the bucket is corrupted: if the
hops are used up, or if a backpointer does not lead to a smaller offset. -/
theorem find_first_match (c : Container) (segment : Nat) (mode : ReadMode)
    (f : Nat → Except TableError (Option Nat)) (maxHops : Nat) (key : Bytes) (head : Nat) :
    let walk := find mode segment (noting f) maxHops key head
    let sees := Sees c segment key
    let trail := Trail c segment mode key f head
    ∃ r asked passed last, walk.run true c [] = (r, c, asked) ∧
      walk.calls true c [] = (passed ++ [last]).flatMap (looks c segment mode key) ∧
      trail passed last ∧ (passed ++ [last]).length ≤ maxHops + 1 ∧
      (asked = passed ∨ asked = passed ++ [last]) ∧ asked.length ≤ maxHops ∧
      (∀ entry, r = .ok (some entry) ↔ ∃ passed x, trail passed x ∧ passed.length ≤ maxHops ∧
        sees x mode (.ok (.found entry))) ∧
      (r = .ok none ↔ ∃ passed x, trail passed x ∧ passed.length ≤ maxHops ∧
        (sees x mode (.ok .removed) ∨
          sees x mode (.ok .other) ∧ passed.length < maxHops ∧ f x = .ok none)) ∧
      ∀ e, r = .error e ↔ ∃ passed x, trail passed x ∧ passed.length ≤ maxHops ∧
        (sees x mode (.error e) ∨
          sees x mode (.ok .other) ∧ passed.length < maxHops ∧ f x = .error e ∨
          sees x mode (.ok .other) ∧ e = .corruptedBucket x (passed.length + 1) ∧
            (passed.length = maxHops ∨ ∃ y, f x = .ok (some y) ∧ x ≤ y)) := by
  intro walk sees trail
  obtain ⟨passed, x, r, asked, ht, hn, hends⟩ :=
    (Trail.start : trail [] head).exists_ends (Nat.zero_le maxHops)
  have hruns := ht.runs hn hends.runs
  have hcalls : walk.calls true c [] = (passed ++ [x]).flatMap (looks c segment mode key) := by
    rw [List.flatMap_append, List.flatMap_singleton]
    exact hruns.calls
  -- Wherever the walk could have ended, that is its outcome.
  have houtcome {passed' : List Nat} {x' : Nat} {r' : Except TableError (Option Found)}
      {asked' : List Nat} (ht' : trail passed' x') (hn' : passed'.length ≤ maxHops)
      (hends' : Ends c segment key f maxHops passed' x' mode r' asked') : r = r' := by
    have h := hruns.run.symm.trans (ht'.run hn' hends')
    exact congrArg Prod.fst h
  refine ⟨r, asked, passed, x, hruns.run, hcalls, ht, ?_, ?_, ?_, fun entry => ⟨?_, ?_⟩, ⟨?_, ?_⟩,
    fun e => ⟨?_, ?_⟩⟩
  · rw [List.length_append, List.length_singleton]
    exact Nat.succ_le_succ hn
  · exact hends.asks.imp_right And.right
  · rcases hends.asks with rfl | ⟨hlt, rfl⟩
    · exact hn
    · rw [List.length_append, List.length_singleton]
      exact hlt
  · rintro rfl
    cases hends with
    | found h => exact ⟨passed, x, ht, hn, h⟩
  · rintro ⟨passed, x, ht, hn, h⟩
    exact houtcome ht hn (.found h)
  · rintro rfl
    cases hends with
    | removed h => exact ⟨passed, x, ht, hn, .inl h⟩
    | oldest h hlt hf => exact ⟨passed, x, ht, hn, .inr ⟨h, hlt, hf⟩⟩
  · rintro ⟨passed, x, ht, hn, h | ⟨h, hlt, hf⟩⟩
    · exact houtcome ht hn (.removed h)
    · exact houtcome ht hn (.oldest h hlt hf)
  · rintro rfl
    cases hends with
    | unreadable h => exact ⟨passed, x, ht, hn, .inl h⟩
    | unlinked h hlt hf => exact ⟨passed, x, ht, hn, .inr (.inl ⟨h, hlt, hf⟩)⟩
    | tooLong h heq => exact ⟨passed, x, ht, hn, .inr (.inr ⟨h, rfl, .inl heq⟩)⟩
    | forward h hlt hf hle => exact ⟨passed, x, ht, hn, .inr (.inr ⟨h, rfl, .inr ⟨_, hf, hle⟩⟩)⟩
  · rintro ⟨passed, x, ht, hn, h | ⟨h, hlt, hf⟩ | ⟨h, rfl, hcorrupted⟩⟩
    · exact houtcome ht hn (.unreadable h)
    · exact houtcome ht hn (.unlinked h hlt hf)
    · rcases Nat.eq_or_lt_of_le hn with heq | hlt
      · exact houtcome ht hn (.tooLong h heq)
      · obtain ⟨y, hf, hle⟩ := hcorrupted.resolve_left (Nat.ne_of_lt hlt)
        exact houtcome ht hn (.forward h hlt hf hle)

theorem Trail.key_of_entry (h : Trail c segment .entry key f head passed x) :
    Trail c segment .key key f head passed x := by
  induction h with
  | start => exact .start
  | next _ hother hf hlt ih => exact ih.next hother.key_of_entry hf hlt

/-- A walk that ends with entries that were read ends alike if only their keys are. -/
theorem Ends.key_of_entry {o : Option Found}
    (h : Ends c segment key f maxHops passed x .entry (.ok o) asked) :
    Ends c segment key f maxHops passed x .key (.ok (o.map fun e => { e with value := none }))
      asked := by
  cases h with
  | found h => exact .found h.key_of_entry
  | removed h => exact .removed h.key_of_entry
  | oldest h hn hf => exact .oldest h.key_of_entry hn hf

/-- A look for a key alone comes to the same as a look for its entry, with the same backpointers
asked for. If only the former succeeds, then the other has visited, within its hops, an entry that
was cut off, or whose checksum does not match. -/
theorem key_walk_refines (c : Container) (segment : Nat) (f : Nat → Except TableError (Option Nat))
    (maxHops : Nat) (key : Bytes) (head : Nat) :
    let walk (mode : ReadMode) := (find mode segment (noting f) maxHops key head).run true c []
    (∀ o, (walk .entry).1 = .ok o →
      walk .key = (.ok (o.map fun e => { e with value := none }), (walk .entry).2)) ∧
    ∀ e found, (walk .key).1 = .ok (some found) → (walk .entry).1 = .error e →
      ∃ passed x h, Trail c segment .entry key f head passed x ∧ passed.length ≤ maxHops ∧
        c.headerAt segment x = .ok h ∧
        (e = .io (.outOfBounds h.totalLength x (c.segment segment).data.length) ∨
          ∃ b, Matches c segment .entry key x h b ∧
            recordChecksum key (Bytes.slice b h.valueOffset h.totalLength) ≠ h.checksum ∧
            e = .checksumMismatch (recordChecksum key (Bytes.slice b h.valueOffset h.totalLength))
              h.checksum) := by
  intro walk
  obtain ⟨passed, x, r, asked, ht, hn, hends⟩ :=
    (Trail.start : Trail c segment .entry key f head [] head).exists_ends (Nat.zero_le maxHops)
  have hentry : walk .entry = (r, c, asked) := ht.run hn hends
  have hkey {r' : Except TableError (Option Found)} {asked' : List Nat}
      (h : Ends c segment key f maxHops passed x .key r' asked') : walk .key = (r', c, asked') :=
    ht.key_of_entry.run hn h
  constructor
  · intro o ho
    obtain rfl : r = .ok o := by rwa [hentry] at ho
    rw [hentry]
    exact hkey hends.key_of_entry
  · intro e found hfound he
    obtain rfl : r = .error e := by rwa [hentry] at he
    -- The key walk does not fail, so it is not for its own reasons that the entry walk does.
    have hsucceeds {e' : TableError} {asked' : List Nat}
        (h : Ends c segment key f maxHops passed x .key (.error e') asked') : False := by
      rw [hkey h] at hfound
      cases hfound
    cases hends with
    | unreadable h =>
      obtain ⟨r, hr, -⟩ := exists_sees c segment .key key x
      cases r with
      | error e' => exact (hsucceeds (.unreadable hr)).elim
      | ok a =>
        obtain ⟨h, hh⟩ := h.only_entry hr
        exact ⟨passed, x, h, ht, hn, hh⟩
    | tooLong h hn => exact (hsucceeds (.tooLong h.key_of_entry hn)).elim
    | unlinked h hn hf => exact (hsucceeds (.unlinked h.key_of_entry hn hf)).elim
    | forward h hn hf hle => exact (hsucceeds (.forward h.key_of_entry hn hf hle)).elim

/-- Behind two entries lies one that was cut off. -/
theorem key_walk_refines_of_cut :
    let a := (Record.update [97] [1]).encode recordChecksum
    let b := (Record.update [98] [2]).encode recordChecksum
    let c : Container := ⟨0, #[{ Segment.ofAttributes "" [] with data := a ++ b ++ a.take 19 }]⟩
    let f : Nat → Except TableError (Option Nat) := fun x => .ok (if x = 20 then some 0 else none)
    let walk (head : Nat) (mode : ReadMode) := (find mode 0 (noting f) 1 [97] head).run true c []
    (walk 20 .entry).1 = .ok (some ⟨[97], some [1], 0⟩) ∧
      (walk 20 .entry).2.2 = [20] ∧
      walk 20 .key = (.ok (some ⟨[97], none, 0⟩), (walk 20 .entry).2) ∧
      (walk 40 .key).1 = .ok (some ⟨[97], none, 40⟩) ∧
      (walk 40 .entry).1 = .error (.io (.outOfBounds 20 40 59)) ∧
      ∃ passed x, Trail c 0 .entry [97] f 40 passed x ∧ passed.length ≤ 1 := by
  intro a b c f walk
  have hfound : (walk 20 .entry).1 = .ok (some ⟨[97], some [1], 0⟩) := by decide +kernel
  have hkey : (walk 40 .key).1 = .ok (some ⟨[97], none, 40⟩) := by decide +kernel
  have hcut : (walk 40 .entry).1 = .error (.io (.outOfBounds 20 40 59)) := by decide +kernel
  obtain ⟨passed, x, -, ht, hn, -⟩ := (key_walk_refines c 0 f 1 [97] 40).2 _ _ hkey hcut
  exact ⟨hfound, by decide +kernel, (key_walk_refines c 0 f 1 [97] 20).1 _ hfound, hkey, hcut,
    passed, x, ht, hn⟩

end Walk
end KeyedLog
