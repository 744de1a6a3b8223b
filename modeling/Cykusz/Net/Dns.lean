import Mathlib
import Cykusz.Net.Checksum

/-!
# DNS queries and replies

`query_host` writes a question after the DNS header: `QName::encode` writes the host name as
labels, each after its length, and then the type and the class of the question. `encode` writes a
byte for each byte of the name, and at each dot it stores the length of the label just ended in
the byte before that label and starts the next label at the dot's own byte. For a name of labels
joined by dots, that is the name of RFC 1035, the labels with their lengths and a zero byte
(`encode_intercalate`). A name with a trailing dot ends with an empty label, so one zero byte
more comes before the type (`encode_trailing_dot`).

`DnsService::process_packet` skips the questions of a reply as zero-terminated names and takes
the address from the rdata of the first answer, whatever the record's type and class, through
`Ip4::new`, which panics on fewer than four bytes. It reads the reply by raw addresses; here a read
past the payload stops the model with `outside`, where the code reads on.
-/

namespace Cykusz.Net.Dns

open OnesComplement Tcp Checksum

/-! ## Writing a name -/

/-- Bytes `l` stand in memory from `a` on. -/
def Written (mem : ℕ → UInt8) (a : ℕ) (l : List UInt8) : Prop :=
  ∀ i (h : i < l.length), mem (a + i) = l[i]

section Written

variable {mem : ℕ → UInt8} {a : ℕ} {l l₁ l₂ : List UInt8}

theorem Written.nil : Written mem a [] := fun _ h => absurd h (Nat.not_lt_zero _)

theorem Written.append (h₁ : Written mem a l₁) (h₂ : Written mem (a + l₁.length) l₂) :
    Written mem a (l₁ ++ l₂) := by
  intro i hi
  by_cases hi₁ : i < l₁.length
  · rw [List.getElem_append_left hi₁]
    exact h₁ i hi₁
  · rw [List.getElem_append_right (by omega)]
    have := h₂ (i - l₁.length) (by simp at hi; omega)
    rwa [show a + l₁.length + (i - l₁.length) = a + i by omega] at this

theorem Written.cons {b : UInt8} (hb : mem a = b) (h : Written mem (a + 1) l) :
    Written mem a (b :: l) := by
  intro i hi
  cases i with
  | zero => simpa using hb
  | succ i =>
    have := h i (by simpa using hi)
    rwa [show a + 1 + i = a + (i + 1) by omega] at this

theorem Written.left (h : Written mem a (l₁ ++ l₂)) : Written mem a l₁ := fun i hi => by
  rw [h i (by simp; omega), List.getElem_append_left hi]

theorem Written.right (h : Written mem a (l₁ ++ l₂)) : Written mem (a + l₁.length) l₂ :=
  fun i hi => by
  rw [Nat.add_assoc, h _ (by simp; omega), List.getElem_append_right (by omega)]
  simp only [Nat.add_sub_cancel_left]

theorem Written.head {b : UInt8} (h : Written mem a (b :: l)) : mem a = b := h 0 (by simp)

theorem Written.tail {b : UInt8} (h : Written mem a (b :: l)) : Written mem (a + 1) l :=
  fun i hi => by rw [Nat.add_assoc, Nat.add_comm 1, h (i + 1) (by simp; omega)]; rfl

/-- A store past the bytes keeps them. -/
theorem Written.update {j : ℕ} {v : UInt8} (h : Written mem a l) (hj : a + l.length ≤ j) :
    Written (Function.update mem j v) a l := by
  intro i hi
  rw [Function.update_of_ne (by omega)]
  exact h i hi

/-- Bytes in memory that a run leaves alone below some address. -/
theorem Written.congr {mem' : ℕ → UInt8} {b : ℕ} (h : Written mem a l) (hb : a + l.length ≤ b)
    (hmem : ∀ j < b, mem' j = mem j) : Written mem' a l := by
  intro i hi
  rw [hmem _ (by omega)]
  exact h i hi

end Written

/-- `'.'`. -/
def dot : UInt8 := 46

/-- The state of the loop of `QName::encode`: the memory, the byte that takes the current label's
length, the next byte to write, and the current label's length. -/
structure EncodeState where
  mem : ℕ → UInt8
  label : ℕ
  ptr : ℕ
  len : ℕ

/-- One turn of the loop of `QName::encode`: a dot stores the length of the label it ends and
starts the next label at its own byte; any other byte is stored. -/
def encodeStep (s : EncodeState) (e : UInt8) : EncodeState :=
  if e = dot then ⟨Function.update s.mem s.label s.len.toUInt8, s.ptr, s.ptr + 1, 0⟩
  else ⟨Function.update s.mem s.ptr e, s.label, s.ptr + 1, s.len + 1⟩

/-- `QName::encode` at `addr`: the memory after, and the address past the name. -/
def encode (mem : ℕ → UInt8) (addr : ℕ) (name : List UInt8) : (ℕ → UInt8) × ℕ :=
  let s := name.foldl encodeStep ⟨mem, addr, addr + 1, 0⟩
  let mem := Function.update s.mem s.label s.len.toUInt8
  let mem := Function.update mem s.ptr 0
  (mem, s.ptr + 1)

@[simp]
theorem encodeStep_dot (s : EncodeState) :
    encodeStep s dot = ⟨Function.update s.mem s.label s.len.toUInt8, s.ptr, s.ptr + 1, 0⟩ :=
  if_pos rfl

/-- A name in the form RFC 1035 gives it, but for the zero byte of the root: each label after its
length. -/
def encodeLabels (labels : List (List UInt8)) : List UInt8 :=
  labels.flatMap fun l => l.length.toUInt8 :: l

@[simp]
theorem encodeLabels_append (l₁ l₂ : List (List UInt8)) :
    encodeLabels (l₁ ++ l₂) = encodeLabels l₁ ++ encodeLabels l₂ := by
  simp [encodeLabels]

@[simp]
theorem encodeLabels_singleton (l : List UInt8) :
    encodeLabels [l] = l.length.toUInt8 :: l := by
  simp [encodeLabels]

/-- The bytes of a label: stored one after the other from the next byte to write. -/
theorem foldl_label {l : List UInt8} (hl : dot ∉ l) (s : EncodeState) :
    let r := l.foldl encodeStep s
    r.label = s.label ∧ r.ptr = s.ptr + l.length ∧ r.len = s.len + l.length ∧
      Written r.mem s.ptr l ∧ ∀ j < s.ptr, r.mem j = s.mem j := by
  induction l generalizing s with
  | nil => exact ⟨rfl, rfl, rfl, Written.nil, fun _ _ => rfl⟩
  | cons e l ih =>
    have he : e ≠ dot := fun h => hl (h ▸ List.mem_cons_self)
    have hstep : encodeStep s e =
        ⟨Function.update s.mem s.ptr e, s.label, s.ptr + 1, s.len + 1⟩ := if_neg he
    obtain ⟨hlabel, hptr, hlen, hw, hframe⟩ := ih (fun h => hl (List.mem_cons_of_mem e h))
      ⟨Function.update s.mem s.ptr e, s.label, s.ptr + 1, s.len + 1⟩
    dsimp only at hlabel hptr hlen hframe
    simp only [List.foldl_cons, hstep, List.length_cons]
    refine ⟨hlabel, by omega, by omega, ?_, fun j hj => ?_⟩
    · -- the first byte went to `s.ptr`, the rest from the byte after
      refine Written.cons ?_ hw
      rw [hframe _ (Nat.lt_succ_self _), Function.update_self]
    · rw [hframe j (by omega), Function.update_of_ne (by omega)]

/-- Where the loop of `encode` is at the start of a label: the labels `done` are written from
`addr` on, and the next label's length goes to the byte after them. -/
def Starts (addr : ℕ) (done : List (List UInt8)) (s : EncodeState) : Prop :=
  s.label = addr + (encodeLabels done).length ∧ s.ptr = s.label + 1 ∧ s.len = 0 ∧
    Written s.mem addr (encodeLabels done)

/-- Where the loop of `encode` ends: the labels `done` are written, and so is the last label `cur`
but for its length. -/
def Ends (addr : ℕ) (done : List (List UInt8)) (cur : List UInt8) (s : EncodeState) : Prop :=
  s.label = addr + (encodeLabels done).length ∧ s.len = cur.length ∧
    s.ptr = s.label + 1 + cur.length ∧ Written s.mem addr (encodeLabels done) ∧
    Written s.mem (s.label + 1) cur

variable {addr : ℕ}

/-- A label, from the start of a label. -/
theorem Starts.label {done : List (List UInt8)} {s : EncodeState} {l : List UInt8}
    (hs : Starts addr done s) (hl : dot ∉ l) : Ends addr done l (l.foldl encodeStep s) := by
  obtain ⟨hlabel, hptr, hlen, hw⟩ := hs
  obtain ⟨rlabel, rptr, rlen, rw, rframe⟩ := foldl_label hl s
  refine ⟨rlabel.trans hlabel, by rw [rlen, hlen, Nat.zero_add], by rw [rptr, hptr, rlabel], ?_, ?_⟩
  · exact hw.congr (by omega) rframe
  · rw [rlabel, ← hptr]
    exact rw

/-- The dot after a label stores the label's length and starts the next one. -/
theorem Ends.dot {done : List (List UInt8)} {cur : List UInt8} {s : EncodeState}
    (he : Ends addr done cur s) : Starts addr (done ++ [cur]) (encodeStep s dot) := by
  obtain ⟨hlabel, hlen, hptr, hw, hcur⟩ := he
  rw [encodeStep_dot]
  refine ⟨by simp [hptr, hlabel]; omega, rfl, rfl, ?_⟩
  rw [encodeLabels_append, encodeLabels_singleton]
  refine (hw.update (by omega)).append (Written.cons ?_ ?_)
  · rw [← hlabel, Function.update_self, hlen]
  · rw [← hlabel]
    intro i hi
    rw [Function.update_of_ne (by omega)]
    exact hcur i hi

/-- The loop of `encode` over labels joined by dots: it ends in the last label. -/
theorem foldl_intercalate {labels : List (List UInt8)} (hne : labels ≠ [])
    (hdots : ∀ l ∈ labels, dot ∉ l) {done : List (List UInt8)} {s : EncodeState}
    (hs : Starts addr done s) :
    Ends addr (done ++ labels.dropLast) (labels.getLast hne)
      (([dot].intercalate labels).foldl encodeStep s) := by
  induction labels generalizing done s with
  | nil => exact absurd rfl hne
  | cons l rest ih =>
    cases rest with
    | nil => simpa using hs.label (hdots l (by simp))
    | cons l' rest =>
      -- the first label, its dot, and the rest from the start of a label
      have hl := hs.label (hdots l (by simp))
      have hnext := ih (List.cons_ne_nil l' rest) (fun m hm => hdots m (by simp [hm])) hl.dot
      rw [List.intercalate_cons_cons, List.foldl_append, List.foldl_append]
      simpa using hnext

/-- The two stores after the loop of `encode`: the last label's length, and the zero byte. -/
theorem Ends.encode {done : List (List UInt8)} {cur : List UInt8} {s : EncodeState}
    (he : Ends addr done cur s) :
    Written (Function.update (Function.update s.mem s.label s.len.toUInt8) s.ptr 0) addr
      (encodeLabels (done ++ [cur]) ++ [0]) ∧
      s.ptr + 1 = addr + (encodeLabels (done ++ [cur])).length + 1 := by
  -- the length is the store the dot would make; the zero byte then goes where its label would start
  have hst := he.dot
  rw [encodeStep_dot] at hst
  obtain ⟨hlabel, -, -, hw⟩ := hst
  dsimp only at hlabel hw
  refine ⟨hw.update (by omega) |>.append ?_, by omega⟩
  intro i hi
  simp only [List.length_singleton, Nat.lt_one_iff] at hi
  subst hi
  rw [Nat.add_zero, ← hlabel, Function.update_self]
  rfl

/-- `QName::encode` of labels joined by single dots writes the RFC 1035 name: each label after its
length, then a zero byte; and returns the address right after it. -/
theorem encode_intercalate {labels : List (List UInt8)} (hne : labels ≠ [])
    (hdots : ∀ l ∈ labels, dot ∉ l) (mem : ℕ → UInt8) (addr : ℕ) :
    Written (encode mem addr ([dot].intercalate labels)).1 addr (encodeLabels labels ++ [0]) ∧
      (encode mem addr ([dot].intercalate labels)).2 = addr + (encodeLabels labels).length + 1 := by
  have hstart : Starts addr [] ⟨mem, addr, addr + 1, 0⟩ := ⟨by simp [encodeLabels], rfl, rfl,
    Written.nil⟩
  have hend := (foldl_intercalate hne hdots hstart).encode
  rw [List.nil_append, List.dropLast_append_getLast] at hend
  exact hend

theorem intercalate_append_nil {labels : List (List UInt8)} (hne : labels ≠ []) :
    [dot].intercalate (labels ++ [[]]) = [dot].intercalate labels ++ [dot] := by
  induction labels with
  | nil => exact absurd rfl hne
  | cons l rest ih =>
    cases rest with
    | nil => simp
    | cons l' rest =>
      rw [List.cons_append, List.intercalate_cons_of_ne_nil (by simp),
        ih (List.cons_ne_nil l' rest), List.intercalate_cons_cons]
      simp only [List.append_assoc]

/-- A name with a trailing dot has an empty last label: `encode` writes a second zero byte after
the name, where the type of the question should start. -/
theorem encode_trailing_dot {labels : List (List UInt8)} (hne : labels ≠ [])
    (hdots : ∀ l ∈ labels, dot ∉ l) (mem : ℕ → UInt8) (addr : ℕ) :
    Written (encode mem addr ([dot].intercalate labels ++ [dot])).1 addr
        (encodeLabels labels ++ [0, 0]) ∧
      (encode mem addr ([dot].intercalate labels ++ [dot])).2 =
        addr + (encodeLabels labels).length + 2 := by
  have hdots' : ∀ l ∈ labels ++ [[]], dot ∉ l := by
    intro l hl
    rcases List.mem_append.1 hl with hl | hl
    · exact hdots l hl
    · simp at hl; simp [hl]
  obtain ⟨hw, hend⟩ := encode_intercalate (by simp) hdots' mem addr
  rw [intercalate_append_nil hne] at hw hend
  simp only [encodeLabels_append, encodeLabels_singleton, List.length_nil, List.append_assoc,
    List.length_append, List.length_cons] at hw hend
  exact ⟨hw, by rw [hend]; rfl⟩

/-- `NetU16::new(v)` stored at `a`. -/
def storeU16 (mem : ℕ → UInt8) (a : ℕ) (v : UInt16) : ℕ → UInt8 :=
  Function.update (Function.update mem a (v >>> 8).toUInt8) (a + 1) v.toUInt8

/-- The question `query_host` writes from `addr`: `encode_name(host)`, then `encode_type(1)` and
`encode_class(1)` from where the name ends. -/
def encodeQuestion (mem : ℕ → UInt8) (addr : ℕ) (host : List UInt8) : (ℕ → UInt8) × ℕ :=
  let r := encode mem addr host
  let mem := storeU16 r.1 r.2 1
  (storeU16 mem (r.2 + 2) 1, r.2 + 4)

theorem Written.storeU16 {mem : ℕ → UInt8} {a : ℕ} {l : List UInt8} (h : Written mem a l)
    (v : UInt16) : Written (storeU16 mem (a + l.length) v) a (l ++ be16 v) := by
  refine ((h.update (by omega)).update (by omega)).append (Written.cons ?_ (Written.cons ?_ ?_))
  · rw [Function.update_of_ne (by omega), Function.update_self]
  · rw [Function.update_self]
  · exact Written.nil

/-- The question after a name that `encode` wrote: the type and the class follow the name. -/
theorem encodeQuestion_of_encode {mem : ℕ → UInt8} {host name : List UInt8}
    (hw : Written (encode mem addr host).1 addr name)
    (hend : (encode mem addr host).2 = addr + name.length) :
    Written (encodeQuestion mem addr host).1 addr (name ++ be16 1 ++ be16 1) := by
  have h₂ := (hw.storeU16 1).storeU16 1
  have hpos : addr + (name ++ be16 1).length = (encode mem addr host).2 + 2 := by
    simp only [List.length_append, length_be16, hend]
    omega
  rw [hpos, ← hend] at h₂
  exact h₂

/-! ## Reading a reply -/

-- a result or an error of `Except` passes through a bind as the monad says
@[simp]
theorem ok_bind {ε α β : Type} (a : α) (f : α → Except ε β) : (Except.ok a >>= f) = f a := rfl

@[simp]
theorem error_bind {ε α β : Type} (e : ε) (f : α → Except ε β) :
    (Except.error e >>= f) = Except.error e := rfl

/-- How reading a reply goes wrong: a read past the payload, or the panic of `Ip4::new`. -/
inductive Fault
  | outside (offset : ℕ)
  | invalidIp4Array
deriving DecidableEq, Repr

section Reply

-- the payload of the reply, from the DNS header on
variable (p : List UInt8)

/-- A byte of the reply. -/
def readU8 (a : ℕ) : Except Fault UInt8 :=
  match p[a]? with
  | some b => .ok b
  | none => .error (.outside a)

/-- A `NetU16` of the reply, by its `value()`. -/
def readU16 (a : ℕ) : Except Fault ℕ := do
  let hi ← readU8 p a
  let lo ← readU8 p (a + 1)
  pure (hi.toNat * 256 + lo.toNat)

/-- `QName::skip`: past the first zero byte from `a`. -/
def qnameSkip (a : ℕ) : Except Fault ℕ :=
  match h : p[a]? with
  | none => .error (.outside a)
  | some b => if b ≠ 0 then qnameSkip (a + 1) else .ok (a + 1)
termination_by p.length - a
decreasing_by
  have := (List.getElem?_eq_some_iff.1 h).1
  omega

/-- `Question::skip`: the name, the type and the class. -/
def questionSkip (a : ℕ) : Except Fault ℕ := do
  let a ← qnameSkip p a
  pure (a + 2 + 2)

/-- `Answer::skip_name`: a word with either of its top bits set is taken for a compression pointer
of two bytes; anything else for a name that runs to a zero byte. -/
def skipName (a : ℕ) : Except Fault ℕ := do
  let f ← readU16 p a
  if f &&& 0xC000 > 0 then pure (a + 2) else qnameSkip p a

/-- `Answer::rdata`: past the name, the type, the class and the TTL, the data's length and then the
data, as a slice: its start and its length. -/
def rdata (a : ℕ) : Except Fault (ℕ × ℕ) := do
  let a := (← skipName p a) + 8
  let len ← readU16 p a
  pure (a + 2, len)

/-- `Ip4::new` on a slice of the reply. -/
def ip4New (d : ℕ × ℕ) : Except Fault Ip4 :=
  if d.2 < 4 then .error .invalidIp4Array
  else do
    let d0 ← readU8 p d.1
    let d1 ← readU8 p (d.1 + 1)
    let d2 ← readU8 p (d.1 + 2)
    let d3 ← readU8 p (d.1 + 3)
    pure (ip4OfBytes d0 d1 d2 d3)

/-- `DnsService::process_packet`: the address it stores as the result of the query. The counts are
`question_cnt` and `answer_cnt` of the header, at bytes 4 and 6; the questions start at byte 12. -/
def processPacket : Except Fault Ip4 := do
  let qc ← readU16 p 4
  let a ← (List.range qc).foldlM (fun a _ => questionSkip p a) 12
  let ac ← readU16 p 6
  if ac > 0 then ip4New p (← rdata p a) else pure Ip4.empty

end Reply

/-- `DnsHeader`, `repr(C, packed)`: six `NetU16`. -/
structure DnsHeader where
  id : UInt16
  flags : UInt16
  questionCnt : UInt16
  answerCnt : UInt16
  authorityCnt : UInt16
  additionalCnt : UInt16

/-- The twelve bytes of a `DnsHeader`. -/
def DnsHeader.bytes (h : DnsHeader) : List UInt8 :=
  be16 h.id ++ be16 h.flags ++ be16 h.questionCnt ++ be16 h.answerCnt ++ be16 h.authorityCnt ++
    be16 h.additionalCnt

/-- A resource record whose name is the two-byte word `name` (a compression pointer when either of
its top bits is set), with its type, class, TTL and data. -/
def answerBytes (name typ cls : UInt16) (ttl : UInt32) (rd : List UInt8) : List UInt8 :=
  be16 name ++ be16 typ ++ be16 cls ++ be32 ttl ++ be16 rd.length.toUInt16 ++ rd

/-! ### Reads at known places -/

section Reads

variable {p : List UInt8} {n : ℕ}

theorem readU8_at (l₁ l₂ : List UInt8) (hlen : l₁.length = n) (hp : p = l₁ ++ l₂) (i : ℕ)
    (hi : i < l₂.length) : readU8 p (n + i) = .ok l₂[i] := by
  subst hp hlen
  simp [readU8, hi]

theorem readU16_at (l₁ l₂ : List UInt8) (v : UInt16) (hlen : l₁.length = n)
    (hp : p = l₁ ++ (be16 v ++ l₂)) : readU16 p n = .ok v.toNat := by
  have h0 := readU8_at _ _ hlen hp 0 (by simp)
  have h1 := readU8_at _ _ hlen hp 1 (by simp; omega)
  rw [Nat.add_zero] at h0
  rw [readU16, h0, h1]
  simp only [ok_bind, be16, List.cons_append, List.getElem_cons_zero, List.getElem_cons_succ,
    toNat_be16_bytes]
  rfl

end Reads

theorem header_split (h : DnsHeader) (rest : List UInt8) :
    h.bytes ++ rest = (be16 h.id ++ be16 h.flags) ++ (be16 h.questionCnt ++
      (be16 h.answerCnt ++ be16 h.authorityCnt ++ be16 h.additionalCnt ++ rest)) ∧
    h.bytes ++ rest = (be16 h.id ++ be16 h.flags ++ be16 h.questionCnt) ++ (be16 h.answerCnt ++
      (be16 h.authorityCnt ++ be16 h.additionalCnt ++ rest)) := by
  constructor <;> simp [DnsHeader.bytes]

@[simp]
theorem DnsHeader.length_bytes (h : DnsHeader) : h.bytes.length = 12 := rfl

theorem toNat_ne_zero {v : UInt16} (h : v ≠ 0) : v.toNat ≠ 0 :=
  fun h0 => h (UInt16.toNat_inj.1 (h0.trans UInt16.toNat_zero.symm))

/-- The counts of a reply, read from its header. -/
theorem readU16_counts (h : DnsHeader) (rest : List UInt8) :
    readU16 (h.bytes ++ rest) 4 = .ok h.questionCnt.toNat ∧
      readU16 (h.bytes ++ rest) 6 = .ok h.answerCnt.toNat :=
  ⟨readU16_at _ _ _ (by simp) (header_split h rest).1,
    readU16_at _ _ _ (by simp) (header_split h rest).2⟩

/-- A reply that announces questions it does not hold: the skip of the first one reads past the
payload. -/
theorem processPacket_missing_question {h : DnsHeader} (hq : h.questionCnt ≠ 0) :
    processPacket h.bytes = .error (.outside 12) := by
  have hcnt := (readU16_counts h []).1
  rw [List.append_nil] at hcnt
  obtain ⟨k, hk⟩ := Nat.exists_eq_succ_of_ne_zero (toNat_ne_zero hq)
  -- the first question starts at byte 12, where the payload ends
  have hskip : questionSkip h.bytes 12 = .error (.outside 12) := by
    have hnone : h.bytes[12]? = none := List.getElem?_eq_none (by simp)
    rw [questionSkip, qnameSkip]
    split
    · rfl
    · next b hb => rw [hnone] at hb; cases hb
  simp only [processPacket, hcnt, hk, List.range_succ_eq_map, List.foldlM_cons, hskip, ok_bind,
    error_bind]

/-- A reply with no question and an answer whose name is a compression pointer: the address is
read from the answer's data, whatever the record's type and class. -/
theorem processPacket_first_answer {h : DnsHeader} (hq : h.questionCnt = 0) (ha : h.answerCnt ≠ 0)
    {name : UInt16} (hname : name.toNat &&& 0xC000 > 0) (typ cls : UInt16) (ttl : UInt32)
    {rd : List UInt8} (hrd : rd.length < 2 ^ 16) (rest : List UInt8) :
    processPacket (h.bytes ++ answerBytes name typ cls ttl rd ++ rest) =
      ip4New (h.bytes ++ answerBytes name typ cls ttl rd ++ rest) (24, rd.length) := by
  set p := h.bytes ++ answerBytes name typ cls ttl rd ++ rest with hp
  obtain ⟨hqc, hac⟩ := readU16_counts h (answerBytes name typ cls ttl rd ++ rest)
  rw [← List.append_assoc, ← hp, hq] at hqc
  rw [← List.append_assoc, ← hp] at hac
  -- the name is a pointer: the record's fixed fields follow, then the data's length at 22
  have hname₁ : readU16 p 12 = .ok name.toNat :=
    readU16_at h.bytes (be16 typ ++ be16 cls ++ be32 ttl ++ be16 rd.length.toUInt16 ++ rd ++ rest)
      name (by simp) (by simp [hp, answerBytes])
  have hlen : readU16 p 22 = .ok rd.length := by
    have h22 : readU16 p 22 = .ok rd.length.toUInt16.toNat :=
      readU16_at (h.bytes ++ be16 name ++ be16 typ ++ be16 cls ++ be32 ttl) (rd ++ rest)
        rd.length.toUInt16 (by simp) (by simp [hp, answerBytes])
    rwa [Nat.toUInt16, UInt16.toNat_ofNat', Nat.mod_eq_of_lt hrd] at h22
  have hrdata : rdata p 12 = .ok (24, rd.length) := by
    simp [rdata, skipName, hname₁, hname, hlen]
  have hac' : 0 < h.answerCnt.toNat := Nat.pos_of_ne_zero (toNat_ne_zero ha)
  simp [processPacket, hqc, hac, hac', hrdata]

/-- `Ip4::new` on four bytes of the payload. -/
theorem ip4New_four (l₁ rest : List UInt8) (a b c d : UInt8) :
    ip4New (l₁ ++ ([a, b, c, d] ++ rest)) (l₁.length, 4) = .ok (ip4OfBytes a b c d) := by
  have hp : l₁ ++ ([a, b, c, d] ++ rest) = l₁ ++ ([a, b, c, d] ++ rest) := rfl
  have h0 := readU8_at l₁ _ rfl hp 0 (by simp)
  have h1 := readU8_at l₁ _ rfl hp 1 (by simp)
  have h2 := readU8_at l₁ _ rfl hp 2 (by simp)
  have h3 := readU8_at l₁ _ rfl hp 3 (by simp)
  rw [Nat.add_zero] at h0
  rw [ip4New, if_neg (show ¬4 < 4 by decide)]
  simp only [h0, h1, h2, h3, ok_bind]
  rfl

/-- A question for a name with a trailing dot has a zero byte between the name and its type; a
reply's first answer gives the address whatever its type and class, and `Ip4::new` panics when its
data is shorter than four bytes; and a reply that announces a question it does not hold is read
past its end. -/
theorem dns_query_reply_unchecked {labels : List (List UInt8)} (hne : labels ≠ [])
    (hdots : ∀ l ∈ labels, dot ∉ l) (mem : ℕ → UInt8) (addr : ℕ) {h : DnsHeader}
    (hq : h.questionCnt = 0) (ha : h.answerCnt ≠ 0) {name : UInt16}
    (hname : name.toNat &&& 0xC000 > 0) (typ cls : UInt16) (ttl : UInt32) (rest : List UInt8) :
    Written (encodeQuestion mem addr ([dot].intercalate labels ++ [dot])).1 addr
        (encodeLabels labels ++ [0, 0] ++ be16 1 ++ be16 1) ∧
      (∀ rd : List UInt8, rd.length < 4 →
        processPacket (h.bytes ++ answerBytes name typ cls ttl rd ++ rest) =
          .error .invalidIp4Array) ∧
      (∀ a b c d : UInt8,
        processPacket (h.bytes ++ answerBytes name typ cls ttl [a, b, c, d] ++ rest) =
          .ok (ip4OfBytes a b c d)) ∧
      ∀ h' : DnsHeader, h'.questionCnt ≠ 0 → processPacket h'.bytes = .error (.outside 12) := by
  refine ⟨?_, fun rd hrd => ?_, fun a b c d => ?_, fun h' hq' => processPacket_missing_question hq'⟩
  · obtain ⟨hw, hend⟩ := encode_trailing_dot hne hdots mem addr
    exact encodeQuestion_of_encode hw (by simp [hend]; omega)
  · rw [processPacket_first_answer hq ha hname typ cls ttl (by omega) rest, ip4New, if_pos hrd]
  · -- the data starts at byte 24, after the header and the record's fixed fields
    have hp : h.bytes ++ answerBytes name typ cls ttl [a, b, c, d] ++ rest =
        (h.bytes ++ be16 name ++ be16 typ ++ be16 cls ++ be32 ttl ++ be16 (4 : ℕ).toUInt16) ++
          ([a, b, c, d] ++ rest) := by
      simp [answerBytes]
    rw [processPacket_first_answer hq ha hname typ cls ttl (by simp) rest, hp]
    exact ip4New_four _ rest a b c d

/-- The name `host.`, with a trailing dot. -/
def hostLabels : List (List UInt8) := [[104, 111, 115, 116]]

/-- A reply with no question and one answer, whose name points to byte 12. -/
def cnameReplyHeader : DnsHeader := ⟨1, 0x8180, 0, 1, 0, 0⟩

theorem dns_query_reply_unchecked_host :
    Written (encodeQuestion (fun _ => 0) 12 ([dot].intercalate hostLabels ++ [dot])).1 12
        (encodeLabels hostLabels ++ [0, 0] ++ be16 1 ++ be16 1) ∧
      (∀ rd : List UInt8, rd.length < 4 →
        processPacket (cnameReplyHeader.bytes ++ answerBytes 0xC00C 5 1 60 rd ++ []) =
          .error .invalidIp4Array) ∧
      (∀ a b c d : UInt8,
        processPacket (cnameReplyHeader.bytes ++ answerBytes 0xC00C 5 1 60 [a, b, c, d] ++ []) =
          .ok (ip4OfBytes a b c d)) ∧
      ∀ h' : DnsHeader, h'.questionCnt ≠ 0 → processPacket h'.bytes = .error (.outside 12) :=
  dns_query_reply_unchecked (by decide) (by decide) (fun _ => 0) 12 (h := cnameReplyHeader) rfl
    (by decide) (by decide) 5 1 60 []

/-! ## The reply to a query -/

/-- A question as it stands in a message: the name as `encode` writes it, its type and its
class. -/
def questionBytes (labels : List (List UInt8)) (typ cls : UInt16) : List UInt8 :=
  encodeLabels labels ++ [0] ++ be16 typ ++ be16 cls

/-- Labels whose encoding has no zero byte but the one that ends it: none is empty, none has 256
bytes or more (its length byte would wrap), and none holds a zero byte. -/
def LabelsOk (labels : List (List UInt8)) : Prop :=
  ∀ l ∈ labels, l ≠ [] ∧ l.length < 256 ∧ (0 : UInt8) ∉ l

/-- The question `query_host` writes for a name of labels joined by dots. -/
theorem encodeQuestion_questionBytes {labels : List (List UInt8)} (hne : labels ≠ [])
    (hdots : ∀ l ∈ labels, dot ∉ l) (mem : ℕ → UInt8) (addr : ℕ) :
    Written (encodeQuestion mem addr ([dot].intercalate labels)).1 addr (questionBytes labels 1 1) ∧
      (encodeQuestion mem addr ([dot].intercalate labels)).2 =
        addr + (questionBytes labels 1 1).length := by
  obtain ⟨hw, hend⟩ := encode_intercalate hne hdots mem addr
  refine ⟨encodeQuestion_of_encode hw (by simp [hend]; omega), ?_⟩
  simp only [encodeQuestion, hend, questionBytes, List.length_append, length_be16,
    List.length_singleton]
  omega

theorem zero_not_mem_encodeLabels {labels : List (List UInt8)} (h : LabelsOk labels) :
    (0 : UInt8) ∉ encodeLabels labels := by
  simp only [encodeLabels, List.mem_flatMap, List.mem_cons, not_exists, not_and, not_or]
  intro l hl
  obtain ⟨hne, hlt, h0⟩ := h l hl
  refine ⟨fun hlen => ?_, h0⟩
  -- the length byte is the length itself, between 1 and 255
  have hpos := List.length_pos_of_ne_nil hne
  have := congrArg UInt8.toNat hlen
  simp [Nat.toUInt8, UInt8.toNat_ofNat', Nat.mod_eq_of_lt hlt] at this
  omega

/-- `QName::skip` runs to the first zero byte. -/
theorem qnameSkip_of_zero (pre l rest : List UInt8) {p : List UInt8}
    (hp : p = pre ++ (l ++ 0 :: rest)) (hl : (0 : UInt8) ∉ l) :
    qnameSkip p pre.length = .ok (pre.length + l.length + 1) := by
  induction l generalizing pre with
  | nil =>
    have hz : p[pre.length]? = some 0 := by simp [hp]
    rw [qnameSkip]
    split
    · next hn => rw [hz] at hn; cases hn
    · next b hb => rw [hz] at hb; cases hb; simp
  | cons b l ih =>
    have hb : p[pre.length]? = some b := by simp [hp]
    have hb0 : b ≠ 0 := fun h => hl (h ▸ List.mem_cons_self)
    have hrest := ih (pre ++ [b]) (by simp [hp]) (fun h => hl (List.mem_cons_of_mem _ h))
    rw [qnameSkip]
    split
    · next hn => rw [hb] at hn; cases hn
    · next b' hb' =>
      rw [hb] at hb'
      cases hb'
      rw [if_pos hb0]
      simp only [List.length_append, List.length_singleton] at hrest
      rw [hrest]
      simp only [List.length_cons]
      congr 1
      omega

theorem questionSkip_questionBytes (pre rest : List UInt8) {p : List UInt8}
    {labels : List (List UInt8)} {typ cls : UInt16}
    (hp : p = pre ++ (questionBytes labels typ cls ++ rest)) (h : LabelsOk labels) :
    questionSkip p pre.length = .ok (pre.length + (questionBytes labels typ cls).length) := by
  have hskip := qnameSkip_of_zero pre (encodeLabels labels) (be16 typ ++ be16 cls ++ rest)
    (p := p) (by simp [hp, questionBytes]) (zero_not_mem_encodeLabels h)
  simp only [questionSkip, hskip, ok_bind, questionBytes, List.length_append, length_be16,
    List.length_singleton]
  rfl

/-- The skips of `process_packet`'s loop over the questions end where the questions do, by
induction on the questions from the last. -/
theorem foldlM_questionSkip (pre : List UInt8) {p : List UInt8}
    {qs : List (List (List UInt8) × UInt16 × UInt16)} (hqs : ∀ q ∈ qs, LabelsOk q.1) :
    ∀ rest, p = pre ++ (qs.flatMap (fun q => questionBytes q.1 q.2.1 q.2.2) ++ rest) →
      (List.range qs.length).foldlM (fun a _ => questionSkip p a) pre.length =
        .ok (pre.length + (qs.flatMap fun q => questionBytes q.1 q.2.1 q.2.2).length) := by
  induction qs using List.reverseRecOn with
  | nil => intro rest _; rfl
  | append_singleton qs q ih =>
    intro rest hp
    have hfirst := ih (fun q' hq' => hqs q' (List.mem_append_left _ hq'))
      (questionBytes q.1 q.2.1 q.2.2 ++ rest) (by simp [hp])
    have hlast := questionSkip_questionBytes (pre ++ qs.flatMap fun q =>
      questionBytes q.1 q.2.1 q.2.2) rest
      (show p = _ ++ (questionBytes q.1 q.2.1 q.2.2 ++ rest) by simp [hp]) (hqs q (by simp))
    simp only [List.length_append, List.length_singleton, List.range_succ, List.foldlM_append,
      hfirst, ok_bind, List.foldlM_cons, List.foldlM_nil]
    simp only [List.length_append] at hlast
    rw [hlast, ok_bind]
    simp only [List.flatMap_append, List.flatMap_singleton, List.length_append, Nat.add_assoc]
    rfl

/-- `Answer::rdata` of a record whose name is a compression pointer: the data start twelve bytes
into the record. -/
theorem rdata_answerBytes (pre rest : List UInt8) {p : List UInt8} {name typ cls : UInt16}
    {ttl : UInt32} {rd : List UInt8} (hp : p = pre ++ (answerBytes name typ cls ttl rd ++ rest))
    (hname : name.toNat &&& 0xC000 > 0) (hrd : rd.length < 2 ^ 16) :
    rdata p pre.length = .ok (pre.length + 12, rd.length) := by
  have hname₁ : readU16 p pre.length = .ok name.toNat :=
    readU16_at pre (be16 typ ++ be16 cls ++ be32 ttl ++ be16 rd.length.toUInt16 ++ rd ++ rest)
      name rfl (by simp [hp, answerBytes])
  have h10 : readU16 p (pre.length + 10) = .ok rd.length.toUInt16.toNat :=
    readU16_at (pre ++ be16 name ++ be16 typ ++ be16 cls ++ be32 ttl) (rd ++ rest)
      rd.length.toUInt16 (by simp) (by simp [hp, answerBytes])
  rw [Nat.toUInt16, UInt16.toNat_ofNat', Nat.mod_eq_of_lt hrd] at h10
  simp [rdata, skipName, hname₁, hname, h10]

/-- A reply that echoes the questions of a query, in the form `query_host` writes them, and answers
with an address: `process_packet` skips every question and reads the address. -/
theorem process_packet_reads_answer {h : DnsHeader}
    {qs : List (List (List UInt8) × UInt16 × UInt16)} (hqc : h.questionCnt.toNat = qs.length)
    (ha : h.answerCnt ≠ 0) (hqs : ∀ q ∈ qs, LabelsOk q.1) {name : UInt16}
    (hname : name.toNat &&& 0xC000 > 0) (typ cls : UInt16) (ttl : UInt32) (a b c d : UInt8)
    (rest : List UInt8) :
    processPacket (h.bytes ++ qs.flatMap (fun q => questionBytes q.1 q.2.1 q.2.2) ++
      answerBytes name typ cls ttl [a, b, c, d] ++ rest) = .ok (ip4OfBytes a b c d) := by
  set questions := qs.flatMap fun q => questionBytes q.1 q.2.1 q.2.2
  set p := h.bytes ++ questions ++ answerBytes name typ cls ttl [a, b, c, d] ++ rest with hp
  obtain ⟨hq, hac⟩ := readU16_counts h (questions ++ answerBytes name typ cls ttl [a, b, c, d] ++
    rest)
  simp only [← List.append_assoc] at hq hac
  rw [← hp] at hq hac
  have hskip := foldlM_questionSkip h.bytes (p := p) hqs
    (answerBytes name typ cls ttl [a, b, c, d] ++ rest) (by simp [hp, questions])
  have hrdata := rdata_answerBytes (h.bytes ++ questions) rest
    (show p = _ ++ (answerBytes name typ cls ttl [a, b, c, d] ++ rest) by simp [hp]) hname
    (by simp)
  -- the data: the four bytes right after the record's fixed fields
  have hip : ip4New p ((h.bytes ++ questions).length + 12, 4) = .ok (ip4OfBytes a b c d) := by
    have hsplit : p = (h.bytes ++ questions ++ be16 name ++ be16 typ ++ be16 cls ++ be32 ttl ++
        be16 (4 : ℕ).toUInt16) ++ ([a, b, c, d] ++ rest) := by simp [hp, answerBytes]
    rw [hsplit]
    convert ip4New_four _ rest a b c d using 2
    simp only [List.length_append, length_be16, length_be32]
  have hac' : 0 < h.answerCnt.toNat := Nat.pos_of_ne_zero (toNat_ne_zero ha)
  simp only [DnsHeader.length_bytes] at hskip
  change _ = Except.ok (12 + questions.length) at hskip
  simp only [List.length_append, DnsHeader.length_bytes, List.length_cons, List.length_nil] at hrdata hip
  simp [processPacket, hq, hac, hqc, hskip, hac', hrdata, hip]

/-- A query and its reply: `query_host` writes the question for a host name, and a reply that
echoes that question and answers with an address is read back as that address. -/
theorem dns_query_round_trip {labels : List (List UInt8)} (hne : labels ≠ [])
    (hdots : ∀ l ∈ labels, dot ∉ l) (hok : LabelsOk labels) (mem : ℕ → UInt8) (addr : ℕ)
    {h : DnsHeader} (hqc : h.questionCnt = 1) (ha : h.answerCnt ≠ 0) {name : UInt16}
    (hname : name.toNat &&& 0xC000 > 0) (typ cls : UInt16) (ttl : UInt32) (a b c d : UInt8)
    (rest : List UInt8) :
    Written (encodeQuestion mem addr ([dot].intercalate labels)).1 addr (questionBytes labels 1 1) ∧
      processPacket (h.bytes ++ questionBytes labels 1 1 ++ answerBytes name typ cls ttl [a, b, c, d] ++
        rest) = .ok (ip4OfBytes a b c d) := by
  refine ⟨(encodeQuestion_questionBytes hne hdots mem addr).1, ?_⟩
  have hread := process_packet_reads_answer
    (show h.questionCnt.toNat = [(labels, (1 : UInt16), (1 : UInt16))].length by rw [hqc]; rfl) ha
    (by simpa using hok) hname typ cls ttl a b c d rest
  simpa using hread

/-- The reply to a query for `host`: the question echoed, and one answer. -/
def hostReplyHeader : DnsHeader := ⟨1, 0x8180, 1, 1, 0, 0⟩

theorem dns_query_round_trip_host :
    Written (encodeQuestion (fun _ => 0) 12 ([dot].intercalate hostLabels)).1 12
        (questionBytes hostLabels 1 1) ∧
      processPacket (hostReplyHeader.bytes ++ questionBytes hostLabels 1 1 ++
        answerBytes 0xC00C 1 1 60 [10, 0, 2, 15] ++ []) = .ok (ip4OfBytes 10 0 2 15) :=
  dns_query_round_trip (by decide) (by decide) (by simp [LabelsOk, hostLabels]) (fun _ => 0) 12 rfl
    (by decide) (by decide) 1 1 60 10 0 2 15 []

end Cykusz.Net.Dns
