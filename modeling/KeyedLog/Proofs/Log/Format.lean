import KeyedLog.Batch
import KeyedLog.Proofs.Log.Basic

/-! The written form of logs. What is written reads back as it was, and nothing else reads without
an error. -/
namespace KeyedLog

namespace Bytes

theorem bigEndian_add_shiftLeft (n x k : Nat) :
    bigEndian n (x + k <<< (8 * n)) = bigEndian n x := by
  induction n generalizing k with
  | zero => rfl
  | succ n ih =>
    have hdigit : (x + (256 * k) <<< (8 * n)) >>> (8 * n) = x >>> (8 * n) + 256 * k := by
      rw [Nat.shiftLeft_eq, Nat.shiftRight_eq_div_pow, Nat.shiftRight_eq_div_pow,
        Nat.add_mul_div_right _ _ (Nat.two_pow_pos _)]
    have hbyte : UInt8.ofNat (x >>> (8 * n) + 256 * k) = UInt8.ofNat (x >>> (8 * n)) := by
      apply UInt8.toNat_inj.1
      simp
    rw [shiftLeft_succ, bigEndian, bigEndian, hdigit, hbyte, ih]

theorem slice_append_slice (b : Bytes) {start mid stop : Nat} (h : start ≤ mid) (h' : mid ≤ stop) :
    slice b start mid ++ slice b mid stop = slice b start stop := by
  have hlength : stop - start = (mid - start) + (stop - mid) := by omega
  have hmid : start + (mid - start) = mid := by omega
  unfold slice
  rw [hlength, List.take_add, List.drop_drop, hmid]

/-- A number is spelled in one way only. -/
theorem bigEndian_toNat (b : Bytes) : bigEndian b.length (toNat b) = b := by
  induction b with
  | nil => rfl
  | cons d b ih =>
    have hcons : toNat (d :: b) = toNat b + d.toNat <<< (8 * b.length) := by
      rw [← List.singleton_append, toNat_append, Nat.add_comm]
      simp [toNat]
    have hlt : toNat b < 2 ^ (8 * b.length) := by
      have := toNat_lt b
      rwa [Nat.shiftLeft_eq, Nat.one_mul] at this
    have hdigit : (toNat b + d.toNat <<< (8 * b.length)) >>> (8 * b.length) = d.toNat := by
      rw [Nat.shiftLeft_eq, Nat.shiftRight_eq_div_pow,
        Nat.add_mul_div_right _ _ (Nat.two_pow_pos _), Nat.div_eq_of_lt hlt, Nat.zero_add]
    rw [List.length_cons, hcons, bigEndian, hdigit, bigEndian_add_shiftLeft, ih, UInt8.ofNat_toNat]

end Bytes

namespace RecordKind

theorem tag_of_ofTag? {tag : UInt8} {k : RecordKind} (h : ofTag? tag = some k) : k.tag = tag := by
  unfold ofTag? at h
  split at h
  · next h0 =>
    obtain rfl := Option.some.inj h
    exact h0.symm
  · split at h
    · next h1 =>
      obtain rfl := Option.some.inj h
      exact h1.symm
    · cases h

end RecordKind

namespace Header

theorem valid_of_checkLengths {h h' : Header} (hc : h.checkLengths = .ok h') :
    h' = h ∧ h.Valid := by
  unfold checkLengths at hc
  split at hc
  · cases hc
  split at hc
  · cases hc
  · next hkey hvalue =>
    refine ⟨(Except.ok.inj hc).symm, by omega, fun hkind => ?_⟩
    have hnot : ¬0 < h.valueLength := by simpa [isDeletion, hkind] using hvalue
    apply UInt32.toNat_inj.1
    have := mt UInt32.lt_iff_toNat_lt.2 hnot
    simp at this ⊢
    omega

/-- The fields of a header are spelled as they are written. -/
theorem eq_of_decodeFields {kind : RecordKind} {b : Bytes} {h : Header}
    (hd : decodeFields kind b = .ok h) :
    h.kind = kind ∧ h.Valid ∧ b.take 16 = Bytes.bigEndian 4 h.keyLength.toNat ++
      Bytes.bigEndian 4 h.valueLength.toNat ++ Bytes.bigEndian 8 h.checksum.toNat := by
  unfold decodeFields at hd
  generalize hfields : b.take 16 = fields at hd
  dsimp only at hd
  split at hd
  · cases hd
  next hlength =>
  have hlength : fields.length = 16 := by
    have : fields.length = min 16 b.length := by rw [← hfields, List.length_take]
    omega
  obtain ⟨rfl, hvalid⟩ := valid_of_checkLengths hd
  refine ⟨rfl, hvalid, ?_⟩
  -- Each field is a number of as many bytes as it has room for.
  have hfield (start stop : Nat) (hstop : stop ≤ 16) (hle : start ≤ stop) :
      Bytes.bigEndian (stop - start) (Bytes.toNat (Bytes.slice fields start stop)) =
          Bytes.slice fields start stop ∧
        Bytes.toNat (Bytes.slice fields start stop) < 2 ^ (8 * (stop - start)) := by
    have hslice : (Bytes.slice fields start stop).length = stop - start := by
      simp only [Bytes.slice, List.length_take, List.length_drop, hlength]
      omega
    have hnumber := Bytes.toNat_lt (Bytes.slice fields start stop)
    rw [hslice, Nat.shiftLeft_eq, Nat.one_mul] at hnumber
    have hspelled := Bytes.bigEndian_toNat (Bytes.slice fields start stop)
    rw [hslice] at hspelled
    exact ⟨hspelled, hnumber⟩
  obtain ⟨hkey, hkeylt⟩ := hfield 0 4 (by omega) (by omega)
  obtain ⟨hvalue, hvaluelt⟩ := hfield 4 8 (by omega) (by omega)
  obtain ⟨hsum, hsumlt⟩ := hfield 8 16 (by omega) (by omega)
  rw [UInt32.toNat_ofNat_of_lt' hkeylt, UInt32.toNat_ofNat_of_lt' hvaluelt,
    UInt64.toNat_ofNat_of_lt' hsumlt]
  calc fields = Bytes.slice fields 0 16 := by simp [Bytes.slice, ← hlength]
    _ = Bytes.slice fields 0 4 ++ Bytes.slice fields 4 8 ++ Bytes.slice fields 8 16 := by
      rw [Bytes.slice_append_slice _ (by omega) (by omega),
        Bytes.slice_append_slice _ (by omega) (by omega)]
    _ = _ := by rw [hkey, hvalue, hsum]

/-- A header is spelled as it is written. -/
theorem eq_encode_of_decode {b : Bytes} {h : Header} (hd : decode b = .ok h) :
    h.Valid ∧ b.take headerLength = h.encode := by
  cases b with
  | nil => cases hd
  | cons v b =>
    simp only [decode] at hd
    split at hd
    · next hv =>
      cases b with
      | nil => cases hd
      | cons tag b =>
        dsimp only at hd
        split at hd
        · cases hd
        · next kind hkind =>
          obtain ⟨rfl, hvalid, hfields⟩ := eq_of_decodeFields hd
          refine ⟨hvalid, ?_⟩
          change v :: tag :: b.take 16 = _
          rw [hfields, hv, ← RecordKind.tag_of_ofTag? hkind]
          simp [encode]
    · cases hd

end Header

namespace Record

variable {sum : Checksum} {b : Bytes} {h : Header} {r : Record}

/-- A record is spelled as it is written, and its header is the one that was read. -/
theorem eq_encode_of_decode (hd : decode sum b = .ok (h, r)) :
    r.Writable ∧ h = r.header sum ∧ b.take r.length = r.encode sum := by
  unfold decode at hd
  cases hh : Header.decode b with
  | error e =>
    rw [hh] at hd
    cases hd
  | ok h' =>
    rw [hh] at hd
    dsimp only at hd
    generalize hbody : b.take h'.totalLength = body at hd
    split at hd
    · cases hd
    next hlength =>
    split at hd
    · next hsum =>
      obtain ⟨rfl, hr⟩ := Prod.mk.inj (Except.ok.inj hd)
      obtain ⟨⟨hkeymax, htomb⟩, hheader⟩ := Header.eq_encode_of_decode hh
      generalize hkey : Bytes.slice body h'.keyOffset h'.valueOffset = key at hr hsum
      generalize hvalue : Bytes.slice body h'.valueOffset h'.totalLength = value at hr hsum
      have hlength : body.length = h'.totalLength := by
        have : body.length = min h'.totalLength b.length := by rw [← hbody, List.length_take]
        omega
      have hkeylength : key.length = h'.keyLength.toNat := by
        rw [← hkey, Bytes.slice, List.length_take, List.length_drop, hlength]
        simp only [Header.keyOffset, Header.totalLength, Header.valueOffset]
        omega
      have hvaluelength : value.length = h'.valueLength.toNat := by
        rw [← hvalue, Bytes.slice, List.length_take, List.length_drop, hlength]
        simp only [Header.totalLength]
        omega
      -- A removal has no value, so that nothing of what was read is lost.
      have hparts : r.kind = h'.kind ∧ r.key = key ∧ r.value = value := by
        rw [← hr]
        cases hkind : h'.kind with
        | value => exact ⟨rfl, rfl, rfl⟩
        | tombstone =>
          have hnone : value = [] := by
            apply List.eq_nil_of_length_eq_zero
            rw [hvaluelength, htomb hkind]
            rfl
          exact ⟨rfl, rfl, hnone.symm⟩
      obtain ⟨hrkind, hrkey, hrvalue⟩ := hparts
      have hsame : h' = r.header sum := by
        rw [header, hrkind, hrkey, hrvalue, hkeylength, hvaluelength, hsum, UInt32.ofNat_toNat,
          UInt32.ofNat_toNat]
      have hwritable : r.Writable := by
        refine ⟨?_, ?_⟩
        · rw [hrkey, hkeylength]
          exact hkeymax
        · rw [hrvalue, hvaluelength]
          exact h'.valueLength.toNat_lt
      have htotal : h'.totalLength = r.length := by rw [hsame, header_totalLength sum hwritable]
      refine ⟨hwritable, hsame, ?_⟩
      calc b.take r.length = body := by rw [← htotal, hbody]
        _ = Bytes.slice body 0 h'.totalLength := by simp [Bytes.slice, ← hlength]
        _ = Bytes.slice body 0 headerLength ++ key ++ value := by
          rw [← hkey, ← hvalue, Header.keyOffset, Bytes.slice_append_slice _ (by omega)
            (by simp [Header.valueOffset]), Bytes.slice_append_slice _ (by omega)
            (by simp [Header.totalLength])]
        _ = r.encode sum := by
          have hstart : Bytes.slice body 0 headerLength = b.take headerLength := by
            rw [Bytes.slice, List.drop_zero, Nat.sub_zero, ← hbody, List.take_take,
              Nat.min_eq_left (headerLength_le_totalLength h')]
          rw [hstart, hheader, encode, ← hsame, hrkey, hrvalue]
    · cases hd

/-- What is cut off within a record does not read as one. -/
theorem decode_take {k : Nat} (hw : r.Writable) (hk : k < r.length) :
    ∃ e, decode sum ((r.encode sum).take k) = .error e := by
  cases hd : decode sum ((r.encode sum).take k) with
  | error e => exact ⟨e, rfl⟩
  | ok hr =>
    obtain ⟨h, s⟩ := hr
    obtain ⟨hs, -, htake⟩ := eq_encode_of_decode hd
    -- What was read of the part would be read of the whole.
    have hle : s.length ≤ k := by
      have := congrArg List.length htake
      simp only [List.length_take, length_encode] at this
      omega
    have hwhole : r.encode sum = s.encode sum ++ (r.encode sum).drop s.length := by
      rw [← htake, List.take_take, Nat.min_eq_left hle, List.take_append_drop]
    have hsame : r = s := by
      have hread := decode_encode_append sum hs ((r.encode sum).drop s.length)
      have hself := decode_encode_append sum hw []
      rw [← hwhole] at hread
      rw [List.append_nil, hread] at hself
      exact (Prod.mk.inj (Except.ok.inj hself)).2.symm
    rw [hsame] at hk
    omega

end Record

/-- The bytes of a record: the version, a tag, two lengths and a checksum, then the key and the
value. -/
def Bytes.IsRecord (sum : Checksum) (b : Bytes) : Prop :=
  ∃ tag key value,
    b = [0, tag] ++ bigEndian 4 key.length ++ bigEndian 4 value.length ++
      bigEndian 8 (sum key value).toNat ++ key ++ value ∧
    (tag = 0 ∨ tag = 1 ∧ value = []) ∧ key.length ≤ maxKeyLength ∧ value.length < UInt32.size

namespace Record

variable {sum : Checksum} {b : Bytes} {r : Record}

theorem encode_eq (hw : r.Writable) :
    r.encode sum = [0, r.kind.tag] ++ Bytes.bigEndian 4 r.key.length ++
      Bytes.bigEndian 4 r.value.length ++ Bytes.bigEndian 8 (sum r.key r.value).toNat ++ r.key ++
      r.value := by
  rw [encode, Header.encode, header_keyLength sum hw, header_valueLength sum hw]
  rfl

theorem isRecord_iff : b.IsRecord sum ↔ ∃ r : Record, r.Writable ∧ b = r.encode sum := by
  constructor
  · rintro ⟨tag, key, value, rfl, rfl | ⟨rfl, rfl⟩, hkey, hvalue⟩
    · have hw : (update key value).Writable := ⟨hkey, hvalue⟩
      exact ⟨update key value, hw, (encode_eq hw).symm⟩
    · have hw : (removal key).Writable := ⟨hkey, hvalue⟩
      exact ⟨removal key, hw, (encode_eq hw).symm⟩
  · rintro ⟨r, hw, rfl⟩
    refine ⟨r.kind.tag, r.key, r.value, encode_eq hw, ?_, hw⟩
    cases r with
    | update key value => exact .inl rfl
    | removal key => exact .inr ⟨rfl, rfl⟩

/-- Byte strings that are records are the written form of some records. -/
theorem exists_encodeAll {bs : List Bytes} (hbs : ∀ b ∈ bs, b.IsRecord sum) :
    ∃ rs : List Record, (∀ r ∈ rs, r.Writable) ∧ bs = rs.map (encode sum) := by
  induction bs with
  | nil => exact ⟨[], by simp, rfl⟩
  | cons b bs ih =>
    obtain ⟨r, hr, rfl⟩ := isRecord_iff.1 (hbs b (by simp))
    obtain ⟨rs, hrs, rfl⟩ := ih fun c hc => hbs c (by simp [hc])
    exact ⟨r :: rs, by simpa using ⟨hr, hrs⟩, rfl⟩

end Record

/-- A scan under way, and whether it was stopped. -/
structure Scanner where
  position : Nat
  done : Bool
deriving DecidableEq, Repr

namespace Scanner

def start : Scanner := ⟨0, false⟩

variable (sum : Checksum) (b : Bytes)

/-- The next record, or what stops the scan, or nothing if it is over. -/
def next (s : Scanner) : Option (Except TableError Scanned) × Scanner :=
  if s.done ∨ b.length ≤ s.position then (none, s)
  else
    match Record.decode sum (b.drop s.position) with
    | .ok (h, r) =>
      (some (.ok ⟨s.position, h, r⟩), { s with position := s.position + h.totalLength })
    | .error e => (some (.error e), { s with done := true })

def answers : Nat → Scanner → List (Option (Except TableError Scanned))
  | 0, _ => []
  | n + 1, s =>
    let (answer, s) := s.next sum b
    answer :: answers n s

variable {sum b}

theorem answers_of_next {s : Scanner} (h : s.next sum b = (none, s)) (n : Nat) :
    answers sum b n s = List.replicate n none := by
  induction n with
  | zero => rfl
  | succ n ih => rw [answers, h, List.replicate_succ, ← ih]

end Scanner

namespace Scan

def yield (s : Scan) : List (Except TableError Scanned) :=
  s.records.map .ok ++ s.error?.toList.map .error

variable {sum : Checksum} {b : Bytes}

/-- Asking for one record after the other finds those of the scan, and nothing after them. -/
theorem answers_eq (n : Nat) {m : Nat} (hn : n ≤ m) (position : Nat) :
    Scanner.answers sum b n ⟨position, false⟩ =
      ((ofBytes sum position (b.drop position)).yield.map some ++
        List.replicate m none).take n := by
  induction n generalizing position with
  | zero => rfl
  | succ n ih =>
    by_cases hend : b.length ≤ position
    · have hnext : Scanner.next sum b ⟨position, false⟩ = (none, ⟨position, false⟩) := by
        rw [Scanner.next, if_pos (.inr hend)]
      rw [Scanner.answers_of_next hnext, List.drop_eq_nil_of_le hend, ofBytes, dif_pos rfl]
      simp [yield, List.take_replicate, Nat.min_eq_left hn]
    · have hne : b.drop position ≠ [] := by
        intro h
        exact hend (List.drop_eq_nil_iff.1 h)
      rw [Scanner.answers, Scanner.next, if_neg (by simp [hend]), ofBytes, dif_neg hne]
      cases hd : Record.decode sum (b.drop position) with
      | error e =>
        have hnext : Scanner.next sum b ⟨position, true⟩ = (none, ⟨position, true⟩) := by
          rw [Scanner.next, if_pos (.inl rfl)]
        dsimp only
        rw [Scanner.answers_of_next hnext]
        simp [yield, List.take_replicate, Nat.min_eq_left (Nat.le_of_succ_le hn)]
      | ok hr =>
        obtain ⟨h, r⟩ := hr
        dsimp only
        rw [ih (Nat.le_of_succ_le hn), List.drop_drop]
        rfl

/-- A scan reads records as they are written, up to where nothing or no record follows. -/
theorem ofBytes_split (sum : Checksum) (offset : Nat) (b : Bytes) :
    ∃ (log : List Record) (rest : Bytes), b = Record.encodeAll sum log ++ rest ∧
      (∀ r ∈ log, r.Writable) ∧
      (ofBytes sum offset b).records =
        (Log.placed offset log).map (fun (x, r) => ⟨x, r.header sum, r⟩) ∧
      ((ofBytes sum offset b).error? = none → rest = []) := by
  induction offset, b using ofBytes.induct sum with
  | case1 offset =>
    refine ⟨[], [], rfl, by simp, ?_⟩
    rw [ofBytes, dif_pos rfl]
    simp
  | case2 offset b hne e hd =>
    refine ⟨[], b, rfl, by simp, ?_⟩
    rw [ofBytes, dif_neg hne, hd]
    simp
  | case3 offset b hne h r hd ih =>
    obtain ⟨log, rest, hb, hlog, hrecords, herror⟩ := ih
    obtain ⟨hr, rfl, htake⟩ := Record.eq_encode_of_decode hd
    rw [Record.header_totalLength sum hr] at hb hrecords herror
    refine ⟨r :: log, rest, ?_, by simpa using ⟨hr, hlog⟩, ?_⟩
    · rw [← List.take_append_drop r.length b, htake, hb]
      simp [Record.encodeAll]
    · rw [ofBytes, dif_neg hne, hd]
      dsimp only
      rw [Record.header_totalLength sum hr, hrecords]
      exact ⟨rfl, herror⟩

/-- Scanning any bytes yields records and at most one error, and nothing after it; the records
follow each other from the start on and are spelled as they would be written; no error is found in
records one after the other and in nothing else; and of records that are cut off within one, those
before it are found, and then an error. -/
theorem accepts_written_only (sum : Checksum) :
    (∀ b : Bytes,
      let s := Scan.ofBytes sum 0 b
      (∀ n, Scanner.start.answers sum b n = (s.yield.map some ++ List.replicate n none).take n) ∧
        (∀ x, s.records[0]? = some x → x.offset = 0) ∧
        (∀ i x y, s.records[i]? = some x → s.records[i + 1]? = some y →
          y.offset = x.offset + x.header.totalLength) ∧
        (∀ x ∈ s.records,
          x.record.encode sum = b.slice x.offset (x.offset + x.header.totalLength)) ∧
        (s.error? = none ↔ ∃ bs : List Bytes, (∀ c ∈ bs, c.IsRecord sum) ∧ b = bs.flatten)) ∧
      ∀ (bs : List Bytes) (c : Bytes) (cs : List Bytes) (k : Nat),
        (∀ d ∈ bs ++ c :: cs, d.IsRecord sum) → 0 < k → k < c.length →
          let s := Scan.ofBytes sum 0 ((bs ++ c :: cs).flatten.take (bs.flatten.length + k))
          s.records.map (·.record.encode sum) = bs ∧ s.error?.isSome := by
  refine ⟨fun b => ?_, fun bs c cs k hrecord hpos hk => ?_⟩
  · intro s
    obtain ⟨log, rest, hb, hlog, hrecords, hrest⟩ := ofBytes_split sum 0 b
    have hmem {i : Nat} {x : Scanned} (hx : s.records[i]? = some x) :
        ∃ r, (Log.placed 0 log)[i]? = some (x.offset, r) ∧ r ∈ log ∧
          x = ⟨x.offset, r.header sum, r⟩ := by
      rw [hrecords, List.getElem?_map, Option.map_eq_some_iff] at hx
      obtain ⟨⟨y, r⟩, hy, rfl⟩ := hx
      exact ⟨r, hy, Log.mem_of_mem_placed (List.mem_of_getElem? hy), rfl⟩
    refine ⟨fun n => answers_eq n (Nat.le_refl n) 0, ?_, ?_, ?_, ?_⟩
    · intro x hx
      obtain ⟨r, hr, -, -⟩ := hmem hx
      exact Log.placed_zero hr
    · intro i x y hx hy
      obtain ⟨r, hr, hin, hxr⟩ := hmem hx
      obtain ⟨r', hr', -, -⟩ := hmem hy
      rw [hxr, Record.header_totalLength sum (hlog r hin)]
      exact Log.placed_succ hr hr'
    · intro x hx
      obtain ⟨i, hi⟩ := List.getElem?_of_mem hx
      obtain ⟨r, hr, hin, hxr⟩ := hmem hi
      have hplaced := List.mem_of_getElem? hr
      obtain ⟨after, hafter⟩ := Log.drop_encodeAll sum hplaced
      have hle : x.offset ≤ (Record.encodeAll sum log).length := by
        have := (Log.placed_bounds hplaced).2
        rw [Log.length_encodeAll]
        omega
      rw [hxr, Record.header_totalLength sum (hlog r hin), Bytes.slice, Nat.add_sub_cancel_left, hb,
        List.drop_append_of_le_length hle,
        show (Record.encodeAll sum log).drop x.offset = _ from hafter, List.append_assoc]
      exact (List.take_left' (Record.length_encode sum r)).symm
    · constructor
      · intro hnone
        refine ⟨log.map (Record.encode sum), ?_, ?_⟩
        · intro c hc
          obtain ⟨r, hr, rfl⟩ := List.mem_map.1 hc
          exact Record.isRecord_iff.2 ⟨r, hlog r hr, rfl⟩
        · rw [hb, hrest hnone, List.append_nil]
          rfl
      · rintro ⟨bs, hbs, rfl⟩
        obtain ⟨rs, hrs, rfl⟩ := Record.exists_encodeAll hbs
        change (ofBytes sum 0 (Record.encodeAll sum rs)).error? = none
        rw [Log.ofBytes_encodeAll sum 0 rs hrs]
  · have hbs : ∀ d ∈ bs, d.IsRecord sum := fun d hd => hrecord d (by simp [hd])
    obtain ⟨rs, hrs, rfl⟩ := Record.exists_encodeAll hbs
    obtain ⟨r, hr, rfl⟩ := Record.isRecord_iff.1 (hrecord c (by simp))
    rw [Record.length_encode] at hk
    obtain ⟨e, he⟩ : ∃ e, Record.decode sum ((r.encode sum).take k) = .error e :=
      Record.decode_take hr hk
    have hcut : ((rs.map (Record.encode sum) ++ r.encode sum :: cs).flatten.take
        ((rs.map (Record.encode sum)).flatten.length + k)) =
          Record.encodeAll sum rs ++ (r.encode sum).take k := by
      rw [List.flatten_append, List.take_length_add_append, List.flatten_cons,
        List.take_append_of_le_length (by rw [Record.length_encode]; omega)]
      rfl
    have hne : (r.encode sum).take k ≠ [] := by
      intro h
      have := congrArg List.length h
      rw [List.length_take, Record.length_encode, List.length_nil] at this
      omega
    intro s
    have hs : s = ⟨(Log.placed 0 rs).map fun (x, r) => ⟨x, r.header sum, r⟩, some e⟩ := by
      show ofBytes sum 0 _ = _
      rw [hcut, Log.ofBytes_encodeAll_append sum 0 rs _ hrs, ofBytes, dif_neg hne, he]
      simp
    rw [hs]
    refine ⟨?_, rfl⟩
    rw [List.map_map]
    conv => rhs; rw [← Log.map_snd_placed 0 rs, List.map_map]
    rfl

/-- A removal that is cut off behind an update. -/
theorem accepts_written_only_of_cut :
    let r := Record.update [107] [118]
    let s := ofBytes recordChecksum 0
      ((Record.encodeAll recordChecksum [r, .removal [107]]).take 25)
    s.records.map (·.record.encode recordChecksum) = [r.encode recordChecksum] ∧
      s.error?.isSome := by
  intro r
  have hr : (r.encode recordChecksum).IsRecord recordChecksum :=
    Record.isRecord_iff.2 ⟨r, by decide, rfl⟩
  have hremoval : ((Record.removal [107]).encode recordChecksum).IsRecord recordChecksum :=
    Record.isRecord_iff.2 ⟨.removal [107], by decide, rfl⟩
  have hcut := (accepts_written_only recordChecksum).2 [r.encode recordChecksum] _ [] 5
    (by simpa using ⟨hr, hremoval⟩) (by decide) (by rw [Record.length_encode]; decide)
  have hlength : [r.encode recordChecksum].flatten.length + 5 = 25 := by
    rw [List.flatten_singleton, Record.length_encode]
    rfl
  rw [hlength] at hcut
  exact hcut

end Scan

namespace Batch

/-- The batch of some records, which takes them as they are. -/
def listing (kind : RecordKind) (hash : Record → KeyHash) (rs : List Record) : Batch :=
  rs.foldl (fun b r => b.add r.key (hash r) r.length) (empty kind)

variable {kind : RecordKind} {hash : Record → KeyHash} {rs : List Record}

theorem listing_eq :
    listing kind hash rs =
      ⟨kind, (Log.placed 0 rs).map fun (x, r) => ⟨r.key, hash r, x⟩, Log.size rs⟩ := by
  have hfold (b : Batch) : rs.foldl (fun b r => b.add r.key (hash r) r.length) b =
      { b with
        items := b.items ++ (Log.placed b.length rs).map fun (x, r) => ⟨r.key, hash r, x⟩
        length := b.length + Log.size rs } := by
    induction rs generalizing b with
    | nil => simp
    | cons r rs ih =>
      rw [List.foldl_cons, ih]
      simp [add, Nat.add_assoc]
  rw [listing, hfold]
  simp [empty]

/-- What is written for a batch is as long as the batch says, reads back as the records that were
written, each where the batch has it, and each of them reads back alone whatever follows it. -/
theorem listing_reads_back (sum : Checksum) (kind : RecordKind) (hash : Record → KeyHash)
    (rs : List Record)
    (hlimits : ∀ r ∈ rs, r.key.length ≤ maxKeyLength ∧ r.value.length ≤ maxValueLength) :
    let written := Record.encodeAll sum rs
    let batch := listing kind hash rs
    let scan := Scan.ofBytes sum 0 written
    (written.length = (rs.map Record.length).foldr (· + ·) 0 ∧ written.length = batch.length) ∧
      (scan.error? = none ∧ scan.records.map (·.record) = rs ∧
        scan.records.map (·.offset) = batch.items.map (·.offset) ∧
        batch.items.map (·.key) = rs.map (·.key)) ∧
      ∀ (i : Nat) (item : BatchItem) (r : Record), batch.items[i]? = some item →
        rs[i]? = some r → ∀ rest,
          Record.decode sum (written.slice item.offset (item.offset + r.length) ++ rest) =
            .ok (r.header sum, r) := by
  have hwritable : ∀ r ∈ rs, r.Writable := fun r hr =>
    ((Record.valid_iff r).2 (hlimits r hr)).writable
  intro written batch scan
  have hscan : scan = ⟨(Log.placed 0 rs).map fun (x, r) => ⟨x, r.header sum, r⟩, none⟩ :=
    Log.ofBytes_encodeAll sum 0 rs hwritable
  have hbatch : batch = ⟨kind, (Log.placed 0 rs).map fun (x, r) => ⟨r.key, hash r, x⟩,
    Log.size rs⟩ := listing_eq
  have hrecords : (Log.placed 0 rs).map (·.2) = rs := Log.map_snd_placed 0 rs
  refine ⟨⟨?_, ?_⟩, ⟨?_, ?_, ?_, ?_⟩, ?_⟩
  · rw [Log.length_encodeAll]
    exact Log.size_eq_sum rs
  · rw [Log.length_encodeAll, hbatch]
  · rw [hscan]
  · rw [hscan, List.map_map]
    exact hrecords
  · rw [hscan, hbatch, List.map_map, List.map_map]
    rfl
  · rw [hbatch, List.map_map]
    conv => rhs; rw [← hrecords, List.map_map]
    rfl
  · intro i item r hitem hr rest
    rw [hbatch, List.getElem?_map, Option.map_eq_some_iff] at hitem
    obtain ⟨⟨x, s⟩, hplaced, rfl⟩ := hitem
    have hs : s = r := by
      have hi := congrArg (·[i]?) hrecords
      rw [List.getElem?_map, hplaced, hr] at hi
      exact Option.some.inj hi
    subst hs
    have hmem := List.mem_of_getElem? hplaced
    obtain ⟨after, hafter⟩ := Log.drop_encodeAll sum hmem
    have hslice : written.slice x (x + s.length) = s.encode sum := by
      rw [Bytes.slice, Nat.add_sub_cancel_left, show written.drop x = _ from hafter]
      exact List.take_left' (Record.length_encode sum s)
    rw [hslice]
    exact Record.decode_encode_append sum (hwritable s (List.mem_of_getElem? hr)) rest

/-- A key that is written and removed. -/
theorem listing_reads_back_of_two :
    let rs := [.update [107] [118], .removal [107]]
    let written := Record.encodeAll recordChecksum rs
    let scan := Scan.ofBytes recordChecksum 0 written
    written.length = 39 ∧ scan.error? = none ∧ scan.records.map (·.record) = rs ∧
      scan.records.map (·.offset) = [0, 20] := by
  intro rs written scan
  obtain ⟨⟨hlength, -⟩, ⟨herror, hrecords, hoffsets, -⟩, -⟩ :=
    listing_reads_back recordChecksum .value (fun _ => ⟨0, 0⟩) rs (by decide)
  exact ⟨hlength.trans (by decide), herror, hrecords, hoffsets.trans (by decide)⟩

end Batch
end KeyedLog
