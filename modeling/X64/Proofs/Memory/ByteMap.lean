import X64.Proofs.Except
import X64.Proofs.Memory
import Mathlib.Algebra.BigOperators.Ring.Finset
import Mathlib.Algebra.Order.Ring.Nat

/-!
# Memory as a map from addresses to bytes

A memory is known by its bytes, and this module says what reads and writes do to them.

* Bounds. `Memory.Guards` says that an access succeeds exactly if all of its bytes lie in memory,
  where the end of the access is a natural number and never wraps around.
* Reads. `toNat_wordOfBytes_eq_sum` gives the number that bytes spell, the low byte first.
* Writes. `Write` is a write of a word or of a string of bytes, and `Write.byte?` is the byte that
  it gives to an address. `Write.getElem?_performAll` says that after a sequence of writes each byte
  is the one of the latest write that covers it. Two sequences that give the same bytes are the same
  (`Write.performAll_congr`).
-/

namespace X64

/-- The low bytes of a number are those of its remainder. -/
theorem Width.ofNat_mod_div {w : Width} {k : Nat} (hk : k < w.bytes) (n : Nat) :
    UInt8.ofNat (n % w.modulus / 256 ^ k) = UInt8.ofNat (n / 256 ^ k) := by
  have hmodulus : w.modulus = 256 ^ k * 256 ^ (w.bytes - k) := by
    rw [← Nat.pow_add, Nat.add_sub_cancel' (Nat.le_of_lt hk), modulus_eq_pow_bytes]
  have hdvd : 256 ∣ 256 ^ (w.bytes - k) := Dvd.dvd.pow (Nat.dvd_refl 256) (by omega)
  apply UInt8.toNat_inj.1
  rw [UInt8.toNat_ofNat', UInt8.toNat_ofNat', hmodulus, Nat.mod_mul_right_div_self]
  exact Nat.mod_mod_of_dvd _ hdvd

/-- A search from the end of a list comes to its first element last. -/
theorem findSome?_reverse_cons {α β : Type} (f : α → Option β) (x : α) (xs : List α) :
    (x :: xs).reverse.findSome? f = (xs.reverse.findSome? f).or (f x) := by
  rw [List.reverse_cons, List.findSome?_append, List.findSome?_singleton]

/-- A number that is spelled by its bytes, the low byte first. -/
theorem toNat_wordOfBytes_eq_sum {bs : List UInt8} (h : bs.length ≤ 8) :
    (wordOfBytes bs).toNat = ∑ i ∈ Finset.range bs.length, (bs[i]?.getD 0).toNat * 256 ^ i := by
  induction bs with
  | nil => rfl
  | cons b bs ih =>
    have hlength : bs.length ≤ 8 := by
      rw [List.length_cons] at h
      omega
    rw [toNat_wordOfBytes_cons h, ih hlength, List.length_cons, Finset.sum_range_succ',
      Finset.mul_sum, Nat.add_comm]
    simp only [List.getElem?_cons_succ, List.getElem?_cons_zero, Option.getD_some, Nat.pow_zero,
      Nat.mul_one, Nat.pow_succ]
    congr 1
    refine Finset.sum_congr rfl fun i _ => ?_
    rw [Nat.mul_left_comm, Nat.mul_comm 256]

namespace Memory

/-! ## Bounds -/

/-- The outcome of an access of `length` bytes. It succeeds exactly if all of them lie in memory,
and otherwise the error says which access it was. -/
structure Guards {α : Type} (m : Memory) (address : UInt64) (length : Nat)
    (outcome : Except OutOfBounds α) : Prop where
  succeeds_iff : (∃ a, outcome = .ok a) ↔ address.toNat + length ≤ m.size
  fails : ¬address.toNat + length ≤ m.size →
    outcome = .error { address, length, size := m.size }

section

variable {α β : Type} {m : Memory} {a : UInt64} {length : Nat}

/-- An access that checks its bounds first, and then does not fail. -/
theorem guards_check (f : Unit → α) :
    m.Guards a length (m.check a length >>= fun u => pure (f u)) := by
  unfold check
  by_cases h : m.InBounds a length
  · rw [if_pos h]
    exact ⟨iff_of_true ⟨_, rfl⟩ h, fun hout => absurd h hout⟩
  · rw [if_neg h]
    exact ⟨iff_of_false (fun ⟨_, hok⟩ => by cases hok) h, fun _ => rfl⟩

theorem Guards.bind_pure {x : Except OutOfBounds α} (h : m.Guards a length x) (f : α → β) :
    m.Guards a length (x >>= fun b => pure (f b)) where
  succeeds_iff := by
    rw [← h.succeeds_iff]
    cases x <;> simp [bind, Except.bind, pure, Except.pure]
  fails hout := by
    rw [h.fails hout]
    rfl

theorem guards_readBytes : m.Guards a length (m.readBytes a length) := guards_check _

theorem guards_read {w : Width} : m.Guards a w.bytes (m.read a w) := guards_readBytes.bind_pure _

theorem guards_writeBytes {bs : List UInt8} : m.Guards a bs.length (m.writeBytes a bs) :=
  guards_check _

theorem guards_write {v : UInt64} {w : Width} : m.Guards a w.bytes (m.write a v w) := by
  have h : m.Guards a (bytesOfWord w.bytes v).length (m.writeBytes a (bytesOfWord w.bytes v)) :=
    guards_writeBytes
  rwa [length_bytesOfWord] at h

/-! ## Reads -/

theorem readBytes_eq_ok_iff {row : Array UInt8} :
    m.readBytes a length = .ok row ↔
      m.InBounds a length ∧ row = m.bytes.extract a.toNat (a.toNat + length) := by
  by_cases h : m.InBounds a length
  · rw [readBytes_eq h, Except.ok.injEq, and_iff_right h, eq_comm]
  · rw [readBytes_of_not_inBounds h]
    simp [h]

/-- The bytes that are read, one by one. -/
theorem getElem?_of_readBytes {row : Array UInt8} (h : m.readBytes a length = .ok row) :
    row.size = length ∧ ∀ i < length, row[i]? = m.bytes[a.toNat + i]? := by
  obtain ⟨hin, rfl⟩ := readBytes_eq_ok_iff.1 h
  have hsize : a.toNat + length ≤ m.bytes.size := hin
  refine ⟨by rw [Array.size_extract]; omega, fun i hi => ?_⟩
  rw [Array.getElem?_extract, if_pos (by omega)]

end

/-! ## Writes -/

/-- A write to memory: a word of some width, or a string of bytes. -/
inductive Write where
  | word (address value : UInt64) (width : Width)
  | bytes (address : UInt64) (content : List UInt8)
  deriving DecidableEq, Repr

namespace Write

/-- Where the bytes of the write begin. -/
def address : Write → UInt64
  | .word address _ _ => address
  | .bytes address _ => address

/-- The number of bytes. -/
def length : Write → Nat
  | .word _ _ width => width.bytes
  | .bytes _ content => content.length

/-- The byte that the write gives to the address `k`, if it covers it. -/
def byte? (w : Write) (k : Nat) : Option UInt8 :=
  if w.address.toNat ≤ k ∧ k < w.address.toNat + w.length then
    match w with
    | .word address value _ => some (UInt8.ofNat (value.toNat / 256 ^ (k - address.toNat)))
    | .bytes address content => content[k - address.toNat]?
  else none

/-- Carries out the write. -/
def perform (m : Memory) : Write → Except OutOfBounds Memory
  | .word address value width => m.write address value width
  | .bytes address content => m.writeBytes address content

/-- Carries out a sequence of writes. -/
def performAll (m : Memory) (ws : List Write) : Except OutOfBounds Memory :=
  ws.foldlM perform m

/-- The byte that the latest of the writes that cover the address `k` gives to it. -/
def latestByte? (ws : List Write) (k : Nat) : Option UInt8 :=
  ws.reverse.findSome? fun w => w.byte? k

/-- The writes cover no address in common. -/
def Disjoint (x y : Write) : Prop :=
  x.address.toNat + x.length ≤ y.address.toNat ∨ y.address.toNat + y.length ≤ x.address.toNat

instance (x y : Write) : Decidable (x.Disjoint y) := inferInstanceAs (Decidable (_ ∨ _))

/-- The bytes that are written, from the first address on. -/
def content : Write → List UInt8
  | .word _ value width => bytesOfWord width.bytes value
  | .bytes _ content => content

variable {m m' : Memory} {w x y : Write} {ws ws' : List Write} {k : Nat}

theorem length_content (w : Write) : w.content.length = w.length := by
  cases w with
  | word address value width => exact length_bytesOfWord width.bytes value
  | bytes address content => rfl

theorem byte?_eq (w : Write) (k : Nat) :
    w.byte? k = if w.address.toNat ≤ k ∧ k < w.address.toNat + w.length then
      w.content[k - w.address.toNat]? else none := by
  unfold byte?
  split
  · next h =>
    cases w with
    | word address value width =>
      have hk : k - address.toNat < width.bytes := Nat.sub_lt_left_of_lt_add h.1 h.2
      exact (getElem?_bytesOfWord hk value).symm
    | bytes address content => rfl
  · rfl

theorem perform_eq_ok_iff :
    w.perform m = .ok m' ↔
      m.InBounds w.address w.length ∧ m' = m.store w.address w.content := by
  have hwrite : w.perform m = m.writeBytes w.address w.content := by cases w <;> rfl
  rw [hwrite, writeBytes, check, length_content]
  by_cases h : m.InBounds w.address w.length
  · rw [if_pos h, ok_bind, and_iff_right h]
    exact ⟨fun hok => (Except.ok.inj hok).symm, fun heq => congrArg Except.ok heq.symm⟩
  · rw [if_neg h]
    exact iff_of_false (fun hok => by cases hok) fun hparts => h hparts.1

theorem size_of_perform (h : w.perform m = .ok m') : m'.size = m.size := by
  obtain ⟨-, rfl⟩ := perform_eq_ok_iff.1 h
  exact size_store ..

/-- After one write, the bytes that it covers are its own. -/
theorem getElem?_perform (h : w.perform m = .ok m') (k : Nat) :
    m'.bytes[k]? = (w.byte? k).or m.bytes[k]? := by
  obtain ⟨hin, rfl⟩ := perform_eq_ok_iff.1 h
  have hsize : w.address.toNat + w.length ≤ m.bytes.size := hin
  rw [store, getElem?_put, byte?_eq, length_content]
  by_cases hk : w.address.toNat ≤ k ∧ k < w.address.toNat + w.length
  · have hlt : k - w.address.toNat < w.content.length := by
      rw [length_content]
      omega
    rw [if_pos (by omega), if_pos hk, List.getElem?_eq_getElem hlt, Option.some_or]
  · rw [if_neg (by omega), if_neg hk, Option.none_or]

theorem performAll_cons_eq_ok_iff :
    performAll m (w :: ws) = .ok m' ↔ ∃ middle, w.perform m = .ok middle ∧
      performAll middle ws = .ok m' := by
  rw [performAll, List.foldlM_cons, bind_eq_ok_iff]
  rfl

/-- A sequence of writes succeeds if each of them is in bounds, for the size stays as it is. -/
theorem exists_performAll_iff :
    (∃ m', performAll m ws = .ok m') ↔ ∀ w ∈ ws, m.InBounds w.address w.length := by
  induction ws generalizing m with
  | nil => simp [performAll, pure, Except.pure]
  | cons w ws ih =>
    simp only [performAll_cons_eq_ok_iff, List.forall_mem_cons]
    constructor
    · intro h
      obtain ⟨m', middle, hfirst, hrest⟩ := h
      obtain ⟨hin, rfl⟩ := perform_eq_ok_iff.1 hfirst
      have hall := ih.1 ⟨m', hrest⟩
      simp only [InBounds, size_store] at hall
      exact ⟨hin, hall⟩
    · intro h
      obtain ⟨hin, hall⟩ := h
      have hall' : ∀ w' ∈ ws, (m.store w.address w.content).InBounds w'.address w'.length := by
        simpa only [InBounds, size_store] using hall
      obtain ⟨m', hrest⟩ := ih.2 hall'
      exact ⟨m', _, perform_eq_ok_iff.2 ⟨hin, rfl⟩, hrest⟩

theorem size_of_performAll (h : performAll m ws = .ok m') : m'.size = m.size := by
  induction ws generalizing m with
  | nil =>
    cases h
    rfl
  | cons w ws ih =>
    obtain ⟨middle, hfirst, hrest⟩ := performAll_cons_eq_ok_iff.1 h
    rw [ih hrest, size_of_perform hfirst]

theorem latestByte?_nil (k : Nat) : latestByte? [] k = none := rfl

theorem latestByte?_cons (w : Write) (ws : List Write) (k : Nat) :
    latestByte? (w :: ws) k = (latestByte? ws k).or (w.byte? k) :=
  findSome?_reverse_cons (byte? · k) w ws

/-- After a sequence of writes, each byte is that of the latest write that covers it. -/
theorem getElem?_performAll (h : performAll m ws = .ok m') (k : Nat) :
    m'.bytes[k]? = (latestByte? ws k).or m.bytes[k]? := by
  induction ws generalizing m with
  | nil =>
    cases h
    rfl
  | cons w ws ih =>
    obtain ⟨middle, hfirst, hrest⟩ := performAll_cons_eq_ok_iff.1 h
    rw [ih hrest, getElem?_perform hfirst, latestByte?_cons, Option.or_assoc]

/-- Sequences that lie in the same bounds and give the same bytes have the same effect. -/
theorem performAll_congr
    (hin : (∀ w ∈ ws, m.InBounds w.address w.length) ↔
      ∀ w ∈ ws', m.InBounds w.address w.length)
    (hbytes : ∀ k, latestByte? ws k = latestByte? ws' k) (m' : Memory) :
    performAll m ws = .ok m' ↔ performAll m ws' = .ok m' := by
  have hiff : (∃ m', performAll m ws = .ok m') ↔ ∃ m', performAll m ws' = .ok m' :=
    exists_performAll_iff.trans (hin.trans exists_performAll_iff.symm)
  have heq {n n' : Memory} (hn : performAll m ws = .ok n) (hn' : performAll m ws' = .ok n') :
      n = n' := by
    have hrow : n.bytes = n'.bytes := by
      apply Array.ext_getElem?
      intro k
      rw [getElem?_performAll hn, getElem?_performAll hn', hbytes]
    cases n
    cases n'
    exact congrArg Memory.mk hrow
  constructor
  · intro h
    obtain ⟨n', hn'⟩ := hiff.1 ⟨m', h⟩
    rwa [heq h hn']
  · intro h
    obtain ⟨n, hn⟩ := hiff.2 ⟨m', h⟩
    rwa [← heq hn h]

theorem performAll_swap (h : x.Disjoint y) (m m' : Memory) :
    performAll m [x, y] = .ok m' ↔ performAll m [y, x] = .ok m' := by
  refine performAll_congr (by simp [and_comm]) (fun k => ?_) m'
  have hnone : x.byte? k = none ∨ y.byte? k = none := by
    unfold Disjoint at h
    by_cases hk : x.address.toNat ≤ k ∧ k < x.address.toNat + x.length
    · exact Or.inr (if_neg (by omega))
    · exact Or.inl (if_neg hk)
  rcases hnone with hnone | hnone <;> simp [latestByte?_cons, latestByte?_nil, hnone]

theorem div_high (v : UInt64) (i : Nat) :
    (v >>> 32).toNat / 256 ^ i = v.toNat / 256 ^ (i + 4) := by
  have hshift : (v >>> 32).toNat = v.toNat / 256 ^ 4 := Nat.shiftRight_eq_div_pow v.toNat 32
  rw [hshift, Nat.div_div_eq_div_mul, ← Nat.pow_add, Nat.add_comm]

/-- The bytes of a word are those of its low half and, four addresses on, those of its high
half. -/
theorem latestByte?_halves {a b : UInt64} (hb : b.toNat = a.toNat + 4) (v : UInt64) (k : Nat) :
    latestByte? [.word a v .qword] k =
      latestByte? [.word a (Width.dword.truncate v) .dword, .word b (v >>> 32) .dword] k := by
  have hqword : Width.qword.bytes = 8 := rfl
  have hdword : Width.dword.bytes = 4 := rfl
  simp only [latestByte?_cons, latestByte?_nil, Option.none_or, byte?, address, length, hqword,
    hdword, hb]
  by_cases hhigh : a.toNat + 4 ≤ k ∧ k < a.toNat + 4 + 4
  · have hk : k - a.toNat = k - (a.toNat + 4) + 4 := by omega
    rw [if_pos (by omega), if_pos hhigh, Option.some_or, div_high, hk]
  · rw [if_neg hhigh, Option.none_or]
    by_cases hlow : a.toNat ≤ k ∧ k < a.toNat + 4
    · have hbyte : k - a.toNat < Width.dword.bytes := Nat.sub_lt_left_of_lt_add hlow.1 hlow.2
      rw [if_pos (by omega), if_pos hlow, Width.toNat_truncate, Width.ofNat_mod_div hbyte]
    · rw [if_neg (by omega), if_neg hlow]

/-- A word is written by writing its halves. -/
theorem performAll_halves (hsize : m.size < UInt64.size) (a v : UInt64) (m' : Memory) :
    performAll m [.word a v .qword] = .ok m' ↔
      performAll m [.word a (Width.dword.truncate v) .dword, .word (a + 4) (v >>> 32) .dword] =
        .ok m' := by
  by_cases hroom : a.toNat + 4 < UInt64.size
  · have hb : (a + 4).toNat = a.toNat + 4 := by
      rw [UInt64.toNat_add]
      exact Nat.mod_eq_of_lt hroom
    refine performAll_congr ?_ (latestByte?_halves hb v) m'
    simp only [List.forall_mem_cons, List.not_mem_nil, false_imp_iff, implies_true, and_true,
      InBounds, address, length, hb, Width.bytes]
    omega
  · -- Neither of the writes at the address is in bounds.
    have hout {w : Write} {ws : List Write} (ha : w.address = a) (hlength : 4 ≤ w.length) :
        performAll m (w :: ws) ≠ .ok m' := by
      intro hok
      have hin := exists_performAll_iff.1 ⟨m', hok⟩ w List.mem_cons_self
      rw [InBounds, ha] at hin
      omega
    have hqword : 4 ≤ Width.qword.bytes := by decide
    have hdword : 4 ≤ Width.dword.bytes := by decide
    exact iff_of_false (hout rfl hqword) (hout rfl hdword)

end Write

/-- A word that is read is the number that its bytes spell, and these are the bytes that are read
from the same place. -/
theorem exists_readBytes_of_read {m : Memory} {a value : UInt64} {w : Width}
    (h : m.read a w = .ok value) :
    ∃ row, m.readBytes a w.bytes = .ok row ∧
      value.toNat = ∑ i ∈ Finset.range w.bytes, (row[i]?.getD 0).toNat * 256 ^ i := by
  have hin := inBounds_of_read h
  have hlength := length_extract_of_inBounds hin
  rw [read_eq hin] at h
  cases h
  refine ⟨_, readBytes_eq hin, ?_⟩
  rw [toNat_wordOfBytes_eq_sum (hlength.symm ▸ w.bytes_le), hlength]
  simp only [Array.getElem?_toList]

/-- Memory is a map from addresses to bytes with checked bounds, and words have their low byte
first. Every access succeeds exactly if all of its bytes lie in memory, and a write that fails gives
no other memory. What is read are the bytes that memory holds there, or the number that they spell.
After a sequence of writes each byte is that of the latest write that covers it, or what it was
before, and the size is the same. So writes that do not overlap can be exchanged, and a word can be
written in two halves, the low one first, in every memory that machine words can address. -/
theorem behaves_as_byte_map (m : Memory) :
    ((∀ a w, m.Guards a w.bytes (m.read a w)) ∧
      (∀ a n, m.Guards a n (m.readBytes a n)) ∧
      (∀ a v w, m.Guards a w.bytes (m.write a v w)) ∧
      ∀ a bs, m.Guards a bs.length (m.writeBytes a bs)) ∧
    (∀ a n row, m.readBytes a n = .ok row →
      row.size = n ∧ ∀ i < n, row[i]? = m.bytes[a.toNat + i]?) ∧
    (∀ a w value, m.read a w = .ok value → ∃ row, m.readBytes a w.bytes = .ok row ∧
      value.toNat = ∑ i ∈ Finset.range w.bytes, (row[i]?.getD 0).toNat * 256 ^ i) ∧
    (∀ ws m', Write.performAll m ws = .ok m' → m'.size = m.size ∧
      ∀ k, m'.bytes[k]? = (Write.latestByte? ws k).or m.bytes[k]?) ∧
    (∀ x y : Write, x.Disjoint y → ∀ m',
      Write.performAll m [x, y] = .ok m' ↔ Write.performAll m [y, x] = .ok m') ∧
    (m.size < UInt64.size → ∀ a v m', m.write a v .qword = .ok m' ↔
      Write.performAll m
        [.word a (Width.dword.truncate v) .dword, .word (a + 4) (v >>> 32) .dword] = .ok m') := by
  refine ⟨⟨fun _ _ => guards_read, fun _ _ => guards_readBytes, fun _ _ _ => guards_write,
    fun _ _ => guards_writeBytes⟩, fun _ _ _ => getElem?_of_readBytes,
    fun _ _ _ => exists_readBytes_of_read,
    fun ws m' h => ⟨Write.size_of_performAll h, Write.getElem?_performAll h⟩,
    fun x y h => Write.performAll_swap h m, fun hsize a v m' => ?_⟩
  rw [← Write.performAll_halves hsize, Write.performAll_cons_eq_ok_iff]
  exact ⟨fun h => ⟨m', h, rfl⟩, fun ⟨middle, h, heq⟩ => Except.ok.inj heq ▸ h⟩

/-- A word at the end of a small memory, and three bytes across its low half. -/
def overlapping : List Write := [.word 8 0x1122334455667788 .qword, .bytes 6 [1, 2, 3]]

/-- The last of the three bytes covers the low byte of the word. A word at the last address of all
is out of bounds: its end does not wrap around. -/
theorem overlapping_bytes :
    (∃ m', Write.performAll (.zeroed 16) overlapping = .ok m' ∧ m'.size = 16 ∧
      m'.bytes[7]? = some 2 ∧ m'.bytes[8]? = some 3 ∧ m'.bytes[9]? = some 0x77 ∧
      m'.bytes[0]? = some 0 ∧ m'.read 8 .word = .ok 0x7703) ∧
    (zeroed 16).read 0xffffffffffffffff .word =
      .error { address := 0xffffffffffffffff, length := 2, size := 16 } := by
  obtain ⟨⟨hread, -⟩, -, -, hwrites, -⟩ := behaves_as_byte_map (.zeroed 16)
  obtain ⟨m', hm'⟩ : ∃ m', Write.performAll (.zeroed 16) overlapping = .ok m' := ⟨_, rfl⟩
  obtain ⟨hsize, hbytes⟩ := hwrites overlapping m' hm'
  refine ⟨⟨m', hm', hsize, ?_, ?_, ?_, ?_, ?_⟩, (hread _ _).fails (by decide)⟩
  · exact (hbytes 7).trans rfl
  · exact (hbytes 8).trans rfl
  · exact (hbytes 9).trans rfl
  · exact (hbytes 0).trans rfl
  · cases hm'
    rfl

end Memory

end X64
