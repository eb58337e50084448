import Teleno.P2p.GorpcCodec

/-! # What is encoded is decoded

Every reader takes off the input exactly what the matching encoder has written, at every format boundary. The
arguments and payloads may be any msgpack value of the kinds that `skip` knows, nested to any depth.
-/

namespace Teleno.P2p

open Library Exec Reader List

/-- The reader takes exactly these bytes, and says that the input was cut as long as they are not all there. -/
abbrev Reads {α : Type} (reader : Reader α) (raw : Bytes) (a : α) : Prop := Parses DecodeError.Short reader raw a

section Numbers

theorem toNat_lowByte (n : ℕ) : (n &&& 0xff).toUInt8.toNat = n % 256 := by
  have mask : n &&& 0xff = n % 256 := Nat.and_two_pow_sub_one_eq_mod n 8
  rw [mask]
  change n % 256 % 2 ^ 8 = n % 256
  omega

variable {b n : ℕ}

theorem two_bytes (a : ℕ) (hb : b < 256) : a <<< 8 ||| b = a * 256 + b := by
  rw [← Nat.shiftLeft_add_eq_or_of_lt hb, Nat.shiftLeft_eq]

theorem four_bytes (a : ℕ) {c d : ℕ} (hb : b < 256) (hc : c < 256) (hd : d < 256) :
    a <<< 24 ||| b <<< 16 ||| c <<< 8 ||| d = a * 2 ^ 24 + b * 2 ^ 16 + c * 2 ^ 8 + d := by
  have first : a <<< 24 ||| b <<< 16 = (a * 256 + b) <<< 16 := by
    rw [← Nat.shiftLeft_add_eq_or_of_lt (by rw [Nat.shiftLeft_eq]; omega)]
    simp only [Nat.shiftLeft_eq]
    omega
  have second : (a * 256 + b) <<< 16 ||| c <<< 8 = ((a * 256 + b) * 256 + c) <<< 8 := by
    rw [← Nat.shiftLeft_add_eq_or_of_lt (by rw [Nat.shiftLeft_eq]; omega)]
    simp only [Nat.shiftLeft_eq]
    omega
  rw [first, second, two_bytes _ hd]
  omega

theorem two_words (a : ℕ) (hb : b < 2 ^ 32) : a <<< 32 ||| b = a * 2 ^ 32 + b := by
  rw [← Nat.shiftLeft_add_eq_or_of_lt hb, Nat.shiftLeft_eq]

theorem parses_readByte (b : UInt8) : Reads readByte [b] b where
  consumes _ := rfl
  awaits start isStart partly := by
    have empty : start = [] := by
      rcases prefix_cons_iff.mp isStart with rfl | ⟨t, rfl, tail⟩
      · rfl
      · rw [prefix_nil.mp tail] at partly
        contradiction
    subst empty
    exact ⟨.cut, [], rfl, rfl⟩

theorem parses_take {raw : Bytes} {count : ℕ} (length : raw.length = count) : Reads (Parser.take .cut count) raw raw :=
  have asks : DecodeError.Short .cut := rfl
  .take asks length

theorem parses_readU16 (fits : n < 2 ^ 16) : Reads readU16 (appendU16 n) n := by
  have value : byteAt (appendU16 n) 0 <<< 8 ||| byteAt (appendU16 n) 1 = n := by
    change (n >>> 8 &&& 0xff).toUInt8.toNat <<< 8 ||| (n &&& 0xff).toUInt8.toNat = n
    rw [toNat_lowByte, toNat_lowByte, two_bytes _ (by omega), Nat.shiftRight_eq_div_pow]
    omega
  rw [readU16, bind_pure_comp]
  exact Parses.map (parses_take rfl) value

theorem parses_readU32 (fits : n < 2 ^ 32) : Reads readU32 (appendU32 n) n := by
  have value : byteAt (appendU32 n) 0 <<< 24 ||| byteAt (appendU32 n) 1 <<< 16 ||| byteAt (appendU32 n) 2 <<< 8 |||
      byteAt (appendU32 n) 3 = n := by
    change (n >>> 24 &&& 0xff).toUInt8.toNat <<< 24 ||| (n >>> 16 &&& 0xff).toUInt8.toNat <<< 16 |||
      (n >>> 8 &&& 0xff).toUInt8.toNat <<< 8 ||| (n &&& 0xff).toUInt8.toNat = n
    simp only [toNat_lowByte, Nat.shiftRight_eq_div_pow]
    rw [four_bytes _ (by omega) (by omega) (by omega)]
    omega
  rw [readU32, bind_pure_comp]
  exact Parses.map (parses_take rfl) value

theorem parses_readU64 (fits : n < 2 ^ 64) : Reads readU64 (appendU64 n) n := by
  have high : n >>> 32 % 2 ^ 32 = n / 2 ^ 32 := by
    rw [Nat.shiftRight_eq_div_pow]
    omega
  have low : n &&& 0xffffffff = n % 2 ^ 32 := Nat.and_two_pow_sub_one_eq_mod n 32
  have value : (n / 2 ^ 32) <<< 32 ||| n % 2 ^ 32 = n := by
    rw [two_words _ (by omega)]
    omega
  rw [readU64, appendU64, high, low]
  refine (parses_readU32 (by omega)).bind ?_
  rw [bind_pure_comp]
  exact (parses_readU32 (by omega)).map value

theorem parses_readUint (fits : n < 2 ^ 64) : Reads readUint (appendUint n) n := by
  have byte {k : ℕ} (small : k ≤ 0xff) : k.toUInt8.toNat = k := by
    change k % 2 ^ 8 = k
    omega
  by_cases small : n ≤ 0x7f
  · have fixed : n.toUInt8 ≤ 0x7f := by
      rw [UInt8.le_iff_toNat_le, byte (by omega)]
      exact small
    rw [appendUint, if_pos small, readUint]
    refine (parses_readByte _).bind_nil ?_
    rw [if_pos fixed, byte (by omega)]
    exact .pure n
  by_cases byteSized : n ≤ 0xff
  · rw [appendUint, if_neg small, if_pos byteSized, readUint]
    refine (parses_readByte mpUint8).bind ?_
    rw [if_neg (by decide), if_neg (by decide), if_pos rfl]
    exact Parses.map (parses_readByte _) (byte byteSized)
  by_cases wordSized : n ≤ 0xffff
  · rw [appendUint, if_neg small, if_neg byteSized, if_pos wordSized, Nat.mod_eq_of_lt (by omega), readUint]
    refine (parses_readByte mpUint16).bind ?_
    rw [if_neg (by decide), if_neg (by decide), if_neg (by decide), if_pos rfl]
    exact parses_readU16 (by omega)
  by_cases longSized : n ≤ 0xffffffff
  · rw [appendUint, if_neg small, if_neg byteSized, if_neg wordSized, if_pos longSized,
      Nat.mod_eq_of_lt (by omega), readUint]
    refine (parses_readByte mpUint32).bind ?_
    rw [if_neg (by decide), if_neg (by decide), if_neg (by decide), if_neg (by decide), if_pos rfl]
    exact parses_readU32 (by omega)
  · rw [appendUint, if_neg small, if_neg byteSized, if_neg wordSized, if_neg longSized, readUint]
    refine (parses_readByte mpUint64).bind ?_
    rw [if_neg (by decide), if_neg (by decide), if_neg (by decide), if_neg (by decide), if_neg (by decide), if_pos rfl]
    exact parses_readU64 fits

end Numbers

section Headers

/-- The descriptor of a string and its length. -/
inductive RawHeader : UInt8 → Bytes → ℕ → Prop
  | fixed {n : ℕ} (small : n < 32) : RawHeader (0xa0 ||| n).toUInt8 [] n
  | byte {b : UInt8} (kind : b = mpStr8 ∨ b = mpBin8) (n : UInt8) : RawHeader b [n] n.toNat
  | word {b : UInt8} (kind : b = mpStr16 ∨ b = mpBin16) {n : ℕ} (fits : n < 2 ^ 16) : RawHeader b (appendU16 n) n
  | long {b : UInt8} (kind : b = mpStr32 ∨ b = mpBin32) {n : ℕ} (fits : n < 2 ^ 32) : RawHeader b (appendU32 n) n

/-- The descriptor of a map or an array and its size. -/
inductive CountHeader (fixed : ℕ) (count16 count32 : UInt8) : UInt8 → Bytes → ℕ → Prop
  | fixed {n : ℕ} (small : n < 16) : CountHeader fixed count16 count32 (fixed ||| n).toUInt8 [] n
  | word {n : ℕ} (fits : n < 2 ^ 16) : CountHeader fixed count16 count32 count16 (appendU16 n) n
  | long {n : ℕ} (fits : n < 2 ^ 32) : CountHeader fixed count16 count32 count32 (appendU32 n) n

abbrev ArrayHeader := CountHeader 0x90 mpArray16 mpArray32

abbrev MapHeader := CountHeader 0x80 mpMap16 mpMap32

theorem appendRaw_header {value : Bytes} (short : value.length < 2 ^ 32) :
    ∃ b tail, RawHeader b tail value.length ∧ appendRaw value = b :: (tail ++ value) := by
  by_cases small : value.length < 32
  · refine ⟨_, _, .fixed small, ?_⟩
    rw [appendRaw, if_pos small]
    rfl
  by_cases wordSized : value.length ≤ 0xffff
  · refine ⟨_, _, .word (.inl rfl) (by omega), ?_⟩
    rw [appendRaw, if_neg small, if_pos wordSized, Nat.mod_eq_of_lt (by omega)]
    rfl
  · refine ⟨_, _, .long (.inl rfl) short, ?_⟩
    rw [appendRaw, if_neg small, if_neg wordSized, Nat.mod_eq_of_lt short]
    rfl

variable {size : ℕ}

theorem appendCount_header (fixed : ℕ) (count16 count32 : UInt8) (short : size < 2 ^ 32) :
    ∃ b tail, CountHeader fixed count16 count32 b tail size ∧ appendCount fixed count16 count32 size = b :: tail := by
  by_cases small : size < 16
  · refine ⟨_, _, .fixed small, ?_⟩
    rw [appendCount, if_pos small]
  by_cases wordSized : size ≤ 0xffff
  · refine ⟨_, _, .word (show size < 2 ^ 16 by omega), ?_⟩
    rw [appendCount, if_neg small, if_pos wordSized, Nat.mod_eq_of_lt (by omega)]
  · refine ⟨_, _, .long short, ?_⟩
    rw [appendCount, if_neg small, if_neg wordSized, Nat.mod_eq_of_lt short]

theorem parses_readRawSize {b : UInt8} {tail : Bytes} {n : ℕ} (header : RawHeader b tail n) :
    Reads (readRawSize b) tail n := by
  cases header with
  | fixed small =>
    have marked : ∀ n < 32, (0xa0 ||| n).toUInt8 &&& 0xe0 = 0xa0 ∧ ((0xa0 ||| n).toUInt8 &&& 0x1f).toNat = n := by
      decide
    rw [readRawSize, if_pos (marked n small).1, (marked n small).2]
    exact .pure n
  | byte kind n =>
    have other : b &&& 0xe0 ≠ 0xa0 := by rcases kind with rfl | rfl <;> decide
    rw [readRawSize, if_neg other, if_pos kind]
    exact Parses.map (parses_readByte n) rfl
  | word kind fits =>
    have other : b &&& 0xe0 ≠ 0xa0 ∧ ¬ (b = mpStr8 ∨ b = mpBin8) := by rcases kind with rfl | rfl <;> decide
    rw [readRawSize, if_neg other.1, if_neg other.2, if_pos kind]
    exact parses_readU16 fits
  | long kind fits =>
    have other : b &&& 0xe0 ≠ 0xa0 ∧ ¬ (b = mpStr8 ∨ b = mpBin8) ∧ ¬ (b = mpStr16 ∨ b = mpBin16) := by
      rcases kind with rfl | rfl <;> decide
    rw [readRawSize, if_neg other.1, if_neg other.2.1, if_neg other.2.2, if_pos kind]
    exact parses_readU32 fits

theorem forall_byte {holds : UInt8 → Prop} (all : ∀ n < 256, holds n.toUInt8) (b : UInt8) : holds b := by
  have same : b.toNat.toUInt8 = b := UInt8.ofNat_toNat
  exact same ▸ all b.toNat b.toNat_lt

/-- The mark in the upper half of a descriptor, which the others of its kind do not carry. -/
structure Marks (fixed : ℕ) (mark count16 count32 : UInt8) : Prop where
  marked : ∀ n < 16, (fixed ||| n).toUInt8 &&& 0xf0 = mark ∧ ((fixed ||| n).toUInt8 &&& 0x0f).toNat = n
  only : ∀ b : UInt8, b &&& 0xf0 = mark → (b &&& 0x0f).toNat < 16 ∧ (fixed ||| (b &&& 0x0f).toNat).toUInt8 = b
  word : count16 &&& 0xf0 ≠ mark
  long : count32 &&& 0xf0 ≠ mark
  apart : count32 ≠ count16

theorem array_marks : Marks 0x90 0x90 mpArray16 mpArray32 :=
  ⟨by decide, forall_byte (by decide +kernel), by decide, by decide, by decide⟩

theorem map_marks : Marks 0x80 0x80 mpMap16 mpMap32 :=
  ⟨by decide, forall_byte (by decide +kernel), by decide, by decide, by decide⟩

theorem parses_readCount {fixed : ℕ} {mark count16 count32 b : UInt8} {tail : Bytes} {n : ℕ}
    (marks : Marks fixed mark count16 count32) (header : CountHeader fixed count16 count32 b tail n)
    (otherwise : String) : Reads (readCount mark count16 count32 otherwise b) tail n := by
  cases header with
  | fixed small =>
    rw [readCount, if_pos (marks.marked n small).1, (marks.marked n small).2]
    exact .pure n
  | word fits =>
    rw [readCount, if_neg marks.word, if_pos rfl]
    exact parses_readU16 fits
  | long fits =>
    rw [readCount, if_neg marks.long, if_neg marks.apart, if_pos rfl]
    exact parses_readU32 fits

theorem parses_readRaw {value : Bytes} (short : value.length < 2 ^ 32) : Reads readRaw (appendRaw value) value := by
  obtain ⟨b, tail, header, split⟩ := appendRaw_header short
  rw [split]
  exact (parses_readByte b).bind ((parses_readRawSize header).bind (parses_take rfl))

theorem parses_readMapSize (short : size < 2 ^ 32) : Reads readMapSize (appendMapHeader size) size := by
  obtain ⟨b, tail, header, split⟩ := appendCount_header 0x80 mpMap16 mpMap32 short
  rw [appendMapHeader, split]
  exact (parses_readByte b).bind (parses_readCount map_marks header _)

theorem parses_readArraySize (short : size < 2 ^ 32) : Reads readArraySize (appendArrayHeader size) size := by
  obtain ⟨b, tail, header, split⟩ := appendCount_header 0x90 mpArray16 mpArray32 short
  rw [appendArrayHeader, split]
  exact (parses_readByte b).bind (parses_readCount array_marks header _)

end Headers

/-- A msgpack value of the kinds that `skip` knows: one byte, a number, a string, or an array or a map of values. -/
inductive Value : Bytes → Prop
  | single {b : UInt8} (kind : IsSingle b) : Value [b]
  | scalar {b : UInt8} {body : Bytes} (width : scalarWidth b = some body.length) : Value (b :: body)
  | raw {b : UInt8} {tail body : Bytes} (header : RawHeader b tail body.length) : Value (b :: (tail ++ body))
  | array {b : UInt8} {tail : Bytes} {values : List Bytes} (header : ArrayHeader b tail values.length)
      (each : ∀ value ∈ values, Value value) : Value (b :: (tail ++ values.flatten))
  | map {b : UInt8} {tail : Bytes} {size : ℕ} {values : List Bytes} (header : MapHeader b tail size)
      (pairs : values.length = 2 * size) (each : ∀ value ∈ values, Value value) :
      Value (b :: (tail ++ values.flatten))

section Skip

variable {b : UInt8} {tail value : Bytes} {n : ℕ}

theorem RawHeader.kind (header : RawHeader b tail n) : ¬ IsSingle b ∧ IsRaw b := by
  cases header with
  | fixed small =>
    have kinds : ∀ n < 32, ¬ IsSingle (0xa0 ||| n).toUInt8 ∧ IsRaw (0xa0 ||| n).toUInt8 := by decide
    exact kinds n small
  | byte kind _ => rcases kind with rfl | rfl <;> decide
  | word kind _ => rcases kind with rfl | rfl <;> decide
  | long kind _ => rcases kind with rfl | rfl <;> decide

theorem arrayHeader_kind (header : ArrayHeader b tail n) : ¬ IsSingle b ∧ ¬ IsRaw b ∧ IsArray b := by
  cases header with
  | fixed small =>
    have kinds : ∀ n < 16, ¬ IsSingle (0x90 ||| n).toUInt8 ∧ ¬ IsRaw (0x90 ||| n).toUInt8 ∧
      IsArray (0x90 ||| n).toUInt8 := by decide
    exact kinds n small
  | word | long => decide

theorem mapHeader_kind (header : MapHeader b tail n) : ¬ IsSingle b ∧ ¬ IsRaw b ∧ ¬ IsArray b ∧ IsMap b := by
  cases header with
  | fixed small =>
    have kinds : ∀ n < 16, ¬ IsSingle (0x80 ||| n).toUInt8 ∧ ¬ IsRaw (0x80 ||| n).toUInt8 ∧
      ¬ IsArray (0x80 ||| n).toUInt8 ∧ IsMap (0x80 ||| n).toUInt8 := by decide
    exact kinds n small
  | word | long => decide

theorem scalar_kind {width : ℕ} (scalar : scalarWidth b = some width) :
    ¬ IsSingle b ∧ ¬ IsRaw b ∧ ¬ IsArray b ∧ ¬ IsMap b := by
  have kinds : ∀ b : UInt8, (scalarWidth b).isSome → ¬ IsSingle b ∧ ¬ IsRaw b ∧ ¬ IsArray b ∧ ¬ IsMap b :=
    forall_byte (by decide +kernel)
  exact kinds b (scalar ▸ rfl)

theorem parses_advance {raw : Bytes} {count : ℕ} (length : raw.length = count) : Reads (advance count) raw () :=
  (parses_take length).bind_nil (.pure ())

/-- With as many rounds as the value has bytes, `skipValue` takes it off the input. -/
theorem parses_skipValue (isValue : Value value) {rounds : ℕ} (enough : value.length ≤ rounds) :
    Reads (skipValue rounds) value () := by
  induction isValue generalizing rounds with
    obtain ⟨left, rfl⟩ := Nat.exists_eq_add_one_of_ne_zero (Nat.ne_zero_of_lt enough)
  | @single b kind =>
    refine (parses_readByte b).bind_nil ?_
    rw [if_pos kind]
    exact .pure ()
  | @scalar b body width =>
    obtain ⟨single, raw, array, map⟩ := scalar_kind width
    refine (parses_readByte b).bind ?_
    rw [if_neg single, if_neg raw, if_neg array, if_neg map, width]
    exact parses_advance rfl
  | @raw b tail body header =>
    obtain ⟨single, raw⟩ := header.kind
    refine (parses_readByte b).bind ?_
    rw [if_neg single, if_pos raw]
    exact (parses_readRawSize header).bind (parses_advance rfl)
  | @array b tail values header each ih =>
    obtain ⟨single, raw, array⟩ := arrayHeader_kind header
    refine (parses_readByte b).bind ?_
    rw [if_neg single, if_neg raw, if_pos array]
    refine (parses_readCount array_marks header _).bind (.times fun value mem => ih value mem ?_)
    have within := (sublist_flatten_of_mem mem).length_le
    simp only [length_cons, length_append] at enough
    omega
  | @map b tail size values header pairs each ih =>
    obtain ⟨single, raw, array, map⟩ := mapHeader_kind header
    refine (parses_readByte b).bind ?_
    rw [if_neg single, if_neg raw, if_neg array, if_pos map]
    refine (parses_readCount map_marks header _).bind ?_
    rw [Parser.times_pairs, ← pairs]
    refine .times fun value mem => ih value mem ?_
    have within := (sublist_flatten_of_mem mem).length_le
    simp only [length_cons, length_append] at enough
    omega

theorem accepts_readByte : Accepts (fun tokens b => tokens = [b]) readByte := by
  rintro (_ | ⟨b, left⟩) a rest ok
  · contradiction
  · obtain ⟨⟩ := ok
    exact ⟨[b], rfl, rfl⟩

theorem lowByte_eq (same : n % 256 = b.toNat) : (n &&& 0xff).toUInt8 = b := by
  rw [← UInt8.toNat_inj, toNat_lowByte, same]

theorem accepts_readU16 : Accepts (fun tokens n => n < 2 ^ 16 ∧ appendU16 n = tokens) readU16 := by
  rw [readU16, bind_pure_comp]
  refine Accepts.take.map ?_
  rintro _ raw ⟨rfl, length⟩
  obtain ⟨a, b, rfl⟩ := length_eq_two.mp length
  have ha := a.toNat_lt
  have hb := b.toNat_lt
  have value : byteAt [a, b] 0 <<< 8 ||| byteAt [a, b] 1 = a.toNat * 256 + b.toNat := two_bytes _ hb
  rw [value]
  refine ⟨by omega, ?_⟩
  rw [appendU16, Nat.shiftRight_eq_div_pow, lowByte_eq (b := a) (by omega), lowByte_eq (b := b) (by omega)]

theorem accepts_readU32 : Accepts (fun tokens n => n < 2 ^ 32 ∧ appendU32 n = tokens) readU32 := by
  rw [readU32, bind_pure_comp]
  refine Accepts.take.map ?_
  rintro _ raw ⟨rfl, length⟩
  obtain ⟨a, tail, rfl⟩ := exists_cons_of_length_eq_add_one length
  obtain ⟨b, c, d, rfl⟩ := length_eq_three.mp (Nat.succ.inj length)
  have ha := a.toNat_lt
  have hb := b.toNat_lt
  have hc := c.toNat_lt
  have hd := d.toNat_lt
  have value : byteAt [a, b, c, d] 0 <<< 24 ||| byteAt [a, b, c, d] 1 <<< 16 ||| byteAt [a, b, c, d] 2 <<< 8 |||
      byteAt [a, b, c, d] 3 = a.toNat * 2 ^ 24 + b.toNat * 2 ^ 16 + c.toNat * 2 ^ 8 + d.toNat := four_bytes _ hb hc hd
  rw [value]
  refine ⟨by omega, ?_⟩
  simp only [appendU32, Nat.shiftRight_eq_div_pow]
  rw [lowByte_eq (b := a) (by omega), lowByte_eq (b := b) (by omega), lowByte_eq (b := c) (by omega),
    lowByte_eq (b := d) (by omega)]

theorem accepts_readRawSize (b : UInt8) : Accepts (RawHeader b) (readRawSize b) := by
  have fixed : ∀ b : UInt8, b &&& 0xe0 = 0xa0 → (b &&& 0x1f).toNat < 32 ∧ (0xa0 ||| (b &&& 0x1f).toNat).toUInt8 = b :=
    forall_byte (by decide +kernel)
  unfold readRawSize
  split_ifs with marked byte word long
  · obtain ⟨small, same⟩ := fixed b marked
    refine .pure ?_
    have header := RawHeader.fixed small
    rwa [same] at header
  · refine accepts_readByte.map ?_
    rintro _ n rfl
    exact .byte byte n
  · refine accepts_readU16.mono ?_
    rintro _ n ⟨fits, rfl⟩
    exact .word word fits
  · refine accepts_readU32.mono ?_
    rintro _ n ⟨fits, rfl⟩
    exact .long long fits
  · exact .throw _

theorem accepts_readCount {fixed : ℕ} {mark count16 count32 : UInt8} (marks : Marks fixed mark count16 count32)
    (otherwise : String) (b : UInt8) :
    Accepts (CountHeader fixed count16 count32 b) (readCount mark count16 count32 otherwise b) := by
  unfold readCount
  split_ifs with marked word long
  · obtain ⟨small, same⟩ := marks.only b marked
    refine .pure ?_
    have header : CountHeader fixed count16 count32 _ [] _ := .fixed small
    rwa [same] at header
  · subst word
    refine accepts_readU16.mono ?_
    rintro _ n ⟨fits, rfl⟩
    exact .word fits
  · subst long
    refine accepts_readU32.mono ?_
    rintro _ n ⟨fits, rfl⟩
    exact .long fits
  · exact .throw _

/-- What `skipValue` takes off the input is a value. -/
theorem accepts_skipValue (rounds : ℕ) : Accepts (fun tokens _ => Value tokens) (skipValue rounds) := by
  induction rounds with
  | zero => exact .throw _
  | succ rounds ih =>
    refine accepts_readByte.bind ?_
    rintro _ b rfl
    split_ifs with single raw array map
    · exact .pure (.single single)
    · refine (accepts_readRawSize b).bind fun tail n header => ?_
      refine Accepts.take.bind ?_
      rintro _ body ⟨rfl, rfl⟩
      refine .pure ?_
      have value : Value (b :: (tail ++ body)) := .raw header
      rwa [append_nil]
    · refine (accepts_readCount array_marks _ b).bind fun tail n header => (ih.times n).mono ?_
      rintro _ _ ⟨values, rfl, each, rfl⟩
      exact .array header each
    · refine (accepts_readCount map_marks _ b).bind fun tail n header => ?_
      rw [Parser.times_pairs]
      refine (ih.times (2 * n)).mono ?_
      rintro _ _ ⟨values, pairs, each, rfl⟩
      exact .map header pairs each
    · cases width : scalarWidth b with
      | none => exact .throw _
      | some count =>
        refine Accepts.take.bind ?_
        rintro _ body ⟨rfl, rfl⟩
        refine .pure ?_
        rw [append_nil]
        exact .scalar width

/-- More rounds than there are bytes make no difference. -/
theorem skipValue_of_le {rounds : ℕ} {input : Bytes} (enough : input.length ≤ rounds) :
    skipValue rounds input = skipValue input.length input := by
  have same (n m : ℕ) {input : Bytes} (hn : input.length ≤ n) (hm : input.length ≤ m) :
      skipValue n input = skipValue m input := by
    induction n generalizing m input with
    | zero =>
      obtain rfl := length_eq_zero_iff.mp (Nat.le_zero.mp hn)
      cases m <;> rfl
    | succ n ih =>
      rcases input with _ | ⟨b, left⟩
      · cases m <;> rfl
      · obtain ⟨m, rfl⟩ := Nat.exists_eq_add_one_of_ne_zero (Nat.ne_zero_of_lt hm)
        have agree {input : Bytes} (short : input.length ≤ left.length) :
            skipValue n input = skipValue m input :=
          ih m (short.trans (Nat.le_of_succ_le_succ hn)) (short.trans (Nat.le_of_succ_le_succ hm))
        rw [skipValue, skipValue]
        apply bind_congr_at rfl
        rintro _ _ ⟨⟩
        split_ifs
        · rfl
        · rfl
        · apply bind_congr_at rfl
          intro size rest ok
          exact Parser.times_congr (accepts_skipValue n) (fun _ => agree) size
            ((accepts_readCount array_marks _ b).length_le ok)
        · apply bind_congr_at rfl
          intro size rest ok
          rw [Parser.times_pairs, Parser.times_pairs]
          exact Parser.times_congr (accepts_skipValue n) (fun _ => agree) (2 * size)
            ((accepts_readCount map_marks _ b).length_le ok)
        · rfl
  exact same rounds input.length enough le_rfl

theorem parses_skip (isValue : Value value) : Reads skip value () where
  consumes rest := by
    rw [skip, get_bind]
    exact (parses_skipValue isValue (by rw [length_append]; omega)).consumes rest
  awaits start isStart partly := by
    obtain ⟨e, s, err, asks⟩ := (parses_skipValue isValue le_rfl).awaits start isStart partly
    rw [skipValue_of_le isStart.length_le] at err
    exact ⟨e, s, err, asks⟩

theorem accepts_skip : Accepts (fun tokens _ => Value tokens) skip := by
  intro input a rest ok
  rw [skip, get_bind] at ok
  exact accepts_skipValue _ input a rest ok

theorem slice_append (before after : Bytes) : slice (before ++ after) after = before := by
  rw [slice, length_append, Nat.add_sub_cancel, take_left]

theorem parses_readValue (isValue : Value value) : Reads readValue value value where
  consumes rest := by
    rw [readValue, get_bind, bind_of_ok ((parses_skip isValue).consumes rest), get_bind, slice_append]
    rfl
  awaits start isStart partly := by
    obtain ⟨e, s, err, asks⟩ := (parses_skip isValue).awaits start isStart partly
    exact ⟨e, s, (get_bind _ _).trans (bind_of_error err), asks⟩

theorem accepts_readValue : Accepts (fun tokens value => Value tokens ∧ value = tokens) readValue := by
  intro input a rest ok
  rw [readValue, get_bind] at ok
  obtain ⟨_, left, skips, ends⟩ := bind_eq_ok ok
  obtain ⟨value, isValue, rfl⟩ := accepts_skip input () left skips
  rw [get_bind, slice_append] at ends
  obtain ⟨⟩ := ends
  exact ⟨_, ⟨isValue, rfl⟩, rfl⟩

end Skip

section Maps

variable {α : Type} {entry : α → Bytes → Reader α} {a b c : α} {count : ℕ} {key value rest : Bytes}

theorem parses_entry (shortKey : key.length < 2 ^ 32) (reads : Reads (entry a key) value b)
    (others : Reads (readEntries entry count b) rest c) :
    Reads (readEntries entry (count + 1) a) (appendRaw key ++ (value ++ rest)) c :=
  (parses_readRaw shortKey).bind (reads.bind others)

theorem parses_lastEntry (shortKey : key.length < 2 ^ 32) (reads : Reads (entry a key) value b) :
    Reads (readEntries entry 1 a) (appendRaw key ++ value) b :=
  (parses_readRaw shortKey).bind (reads.bind_nil (.pure b))

theorem parses_readMap (few : count < 2 ^ 32) (entries : Reads (readEntries entry count a) rest b) :
    Reads (readMap entry a) (appendMapHeader count ++ rest) b :=
  (parses_readMapSize few).bind entries

end Maps

section Messages

variable {service : ServiceID} {errType : ErrorType}

theorem parses_readServiceId (shortName : service.name.length < 2 ^ 32) (shortMethod : service.method.length < 2 ^ 32)
    (named : service.name ≠ []) (calls : service.method ≠ []) :
    Reads readServiceId (appendServiceId service.name service.method) service := by
  have given : (!(service.name.isEmpty || service.method.isEmpty)) = true := by
    simp [named, calls]
  rw [readServiceId, appendServiceId]
  refine Parses.bind_nil (parses_readMap (by decide) (parses_entry (b := { name := service.name }) (by decide) ?_
    (parses_lastEntry (by decide) ?_))) (.require given (.pure service))
  · rw [if_pos rfl]
    exact Parses.map (parses_readRaw shortName) rfl
  · rw [if_neg (by decide), if_pos rfl]
    exact Parses.map (parses_readRaw shortMethod) rfl

theorem parses_readResponseHeader_success
    (reads : Reads readServiceId (appendServiceId service.name service.method) service) :
    Reads readResponseHeader (appendMapHeader 1 ++ (appendRaw (literal "Service") ++
      appendServiceId service.name service.method)) { service := service } := by
  refine parses_readMap (by decide) (parses_lastEntry (by decide) ?_)
  rw [if_pos rfl]
  exact Parses.map reads rfl

theorem ErrorType.ofCode_code (valid : errType.Valid) : ofCode errType.code = errType := by
  cases errType with
  | other code =>
    obtain ⟨beyond, -⟩ := valid
    rw [ErrorType.code, ofCode, if_neg (by omega), if_neg (by omega), if_neg (by omega), if_neg (by omega)]
  | nonRpc | server | client | authorization => rfl

theorem ErrorType.code_lt (valid : errType.Valid) : errType.code < 2 ^ 64 := by
  cases errType with
  | other code => exact valid.2
  | nonRpc | server | client | authorization => decide

theorem parses_readResponseHeader_error {error : Bytes}
    (reads : Reads readServiceId (appendServiceId service.name service.method) service)
    (short : error.length < 2 ^ 32) (valid : errType.Valid) :
    Reads readResponseHeader (appendMapHeader 3 ++ (appendRaw (literal "Service") ++
      (appendServiceId service.name service.method ++ (appendRaw (literal "Error") ++ (appendRaw error ++
        (appendRaw (literal "ErrType") ++ appendUint errType.code))))))
      { service := service, error := error, errType := errType } := by
  refine parses_readMap (by decide) (parses_entry (b := { service := service }) (by decide) ?_
    (parses_entry (b := { service := service, error := error }) (by decide) ?_ (parses_lastEntry (by decide) ?_)))
  · rw [if_pos rfl]
    exact Parses.map reads rfl
  · rw [if_neg (by decide), if_pos rfl]
    exact Parses.map (parses_readRaw short) rfl
  · rw [if_neg (by decide), if_neg (by decide), if_pos rfl]
    refine Parses.map (parses_readUint (ErrorType.code_lt valid)) ?_
    rw [ErrorType.ofCode_code valid]

theorem run_of_parses {α : Type} {reader : Reader α} {raw : Bytes} {a : α}
    (parses : Reads reader raw a) : reader.run raw = .ok a := by
  rw [Reader.run, parses.all]

theorem run_of_throws {α : Type} {reader : Reader α} {raw : Bytes} (err : Throws DecodeError.Short reader raw) :
    ∃ e, e.Short ∧ reader.run raw = .error e := by
  obtain ⟨e, rest, outcome, short⟩ := err
  refine ⟨e, short, ?_⟩
  rw [Reader.run, outcome]

theorem run_of_parses_done {α : Type} {reader : Reader α} {raw : Bytes} {a : α} (message : String)
    (parses : Reads reader raw a) :
    Reader.run (do let a ← reader; done message; pure a) raw = .ok a := by
  rw [Reader.run, bind_of_ok parses.all]
  rfl

theorem parses_readPayloads {payloads : List Bytes} (short : ∀ payload ∈ payloads, payload.length < 2 ^ 32)
    (before : List Bytes) : Reads (readPayloads payloads.length before)
      (payloads.map appendRaw).flatten (before ++ payloads) := by
  induction payloads generalizing before with
  | nil =>
    rw [append_nil]
    exact .pure before
  | cons payload rest ih =>
    rw [append_cons]
    exact (parses_readRaw (short payload mem_cons_self)).bind
      (ih (fun other mem => short other (mem_cons_of_mem _ mem)) (before ++ [payload]))

end Messages

/-- The service and the method are given, and short enough for their length to be written. -/
structure ServiceID.Given (service : ServiceID) : Prop where
  named : service.name ≠ []
  calls : service.method ≠ []
  shortName : service.name.length < 2 ^ 32
  shortMethod : service.method.length < 2 ^ 32

theorem ServiceID.Given.reads {service : ServiceID} (given : service.Given) :
    Reads readServiceId (appendServiceId service.name service.method) service :=
  parses_readServiceId given.shortName given.shortMethod given.named given.calls

/-- A message of the protocol. -/
inductive Message where
  | request (service : ServiceID) (args : Bytes)
  | success (service : ServiceID) (payload : Bytes)
  | error (service : ServiceID) (message : Bytes) (errType : ErrorType)
  | ancestorRequest (parentId : Bytes) (childHeight : ℕ)
  | blocksRequest (headBlockId : Bytes) (startBlockHeight numBlocks : ℕ)
  | idResponse (id : Bytes)
  | headBlockResponse (id : Bytes) (height : ℕ)
  | blocksResponse (blockPayloads : List Bytes)

namespace Message

/-- Strings and lists shorter than 2^32, numbers of their types, and arguments and payloads that are values. -/
def WellFormed : Message → Prop
  | request service args => service.Given ∧ Value args
  | success service payload => service.Given ∧ Value payload
  | error service message errType => service.Given ∧ message.length < 2 ^ 32 ∧ errType.Valid
  | ancestorRequest parentId childHeight => parentId.length < 2 ^ 32 ∧ childHeight < 2 ^ 64
  | blocksRequest headBlockId startBlockHeight numBlocks =>
    headBlockId.length < 2 ^ 32 ∧ startBlockHeight < 2 ^ 64 ∧ numBlocks < 2 ^ 32
  | idResponse id => id.length < 2 ^ 32
  | headBlockResponse id height => id.length < 2 ^ 32 ∧ height < 2 ^ 64
  | blocksResponse blockPayloads =>
    blockPayloads.length < 2 ^ 32 ∧ ∀ payload ∈ blockPayloads, payload.length < 2 ^ 32

/-- Decoding the encoded message gives back its fields. -/
def RoundTrips : Message → Prop
  | request service args =>
    decodeRequest (encodeRequest service.name service.method args) = .ok { service := service, args := args }
  | success service payload =>
    decodeResponse (encodeSuccessResponse service payload) =
      .ok { header := { service := service, error := [], errType := .nonRpc }, payload := payload }
  | error service message errType =>
    decodeResponse (encodeErrorResponse service message errType) =
      .ok { header := { service := service, error := message, errType := errType }, payload := [mpNil] }
  | ancestorRequest parentId childHeight =>
    decodeGetAncestorBlockIdRequest (encodeGetAncestorBlockIdRequest parentId childHeight) =
      .ok { parentId := parentId, childHeight := childHeight }
  | blocksRequest headBlockId startBlockHeight numBlocks =>
    decodeGetBlocksRequest (encodeGetBlocksRequest headBlockId startBlockHeight numBlocks) =
      .ok { headBlockId := headBlockId, startBlockHeight := startBlockHeight, numBlocks := numBlocks }
  | idResponse id => decodeIdResponse (encodeIdResponse id) = .ok id
  | headBlockResponse id height =>
    decodeHeadBlockResponse (encodeHeadBlockResponse id height) = .ok { id := id, height := height }
  | blocksResponse blockPayloads => decodeBlocksResponse (encodeBlocksResponse blockPayloads) = .ok blockPayloads

end Message

section RoundTrip

theorem parses_readRequest {service : ServiceID} {args : Bytes} (given : service.Given) (isValue : Value args) :
    Reads readRequest (encodeRequest service.name service.method args)
      { service := service, args := args } := by
  refine given.reads.bind ?_
  rw [bind_pure_comp]
  exact Parses.map (parses_readValue isValue) rfl

theorem parses_readResponse {header : ResponseHeader} {raw payload : Bytes}
    (reads : Reads readResponseHeader raw header) (isValue : Value payload) :
    Reads readResponse (raw ++ payload) { header := header, payload := payload } := by
  refine reads.bind ?_
  rw [bind_pure_comp]
  exact Parses.map (parses_readValue isValue) rfl

theorem decodeGetAncestorBlockIdRequest_encode {parentId : Bytes} {childHeight : ℕ} (short : parentId.length < 2 ^ 32)
    (fits : childHeight < 2 ^ 64) : (Message.ancestorRequest parentId childHeight).RoundTrips := by
  refine run_of_parses_done _ (parses_readMap (by decide) (parses_entry (b := { parentId := parentId }) (by decide) ?_
    (parses_lastEntry (by decide) ?_)))
  · rw [if_pos rfl]
    exact Parses.map (parses_readRaw short) rfl
  · rw [if_neg (by decide), if_pos rfl]
    exact Parses.map (parses_readUint fits) rfl

theorem decodeGetBlocksRequest_encode {headBlockId : Bytes} {startBlockHeight numBlocks : ℕ}
    (short : headBlockId.length < 2 ^ 32) (fits : startBlockHeight < 2 ^ 64) (few : numBlocks < 2 ^ 32) :
    (Message.blocksRequest headBlockId startBlockHeight numBlocks).RoundTrips := by
  refine run_of_parses_done _ (parses_readMap (by decide) (parses_entry (b := { headBlockId := headBlockId })
    (by decide) ?_ (parses_entry (b := { headBlockId := headBlockId, startBlockHeight := startBlockHeight })
      (by decide) ?_ (parses_lastEntry (by decide) ?_))))
  · rw [if_pos rfl]
    exact Parses.map (parses_readRaw short) rfl
  · rw [if_neg (by decide), if_pos rfl]
    exact Parses.map (parses_readUint fits) rfl
  · rw [if_neg (by decide), if_neg (by decide), if_pos rfl]
    exact (parses_readUint (by omega)).bind_nil (.require (decide_eq_true (by omega)) (.pure _))

theorem decodeHeadBlockResponse_encode {id : Bytes} {height : ℕ} (short : id.length < 2 ^ 32)
    (fits : height < 2 ^ 64) : (Message.headBlockResponse id height).RoundTrips := by
  refine run_of_parses_done _ (parses_readMap (by decide) (parses_entry (b := { id := id }) (by decide) ?_
    (parses_lastEntry (by decide) ?_)))
  · rw [if_pos rfl]
    exact Parses.map (parses_readRaw short) rfl
  · rw [if_neg (by decide), if_pos rfl]
    exact Parses.map (parses_readUint fits) rfl

theorem decodeIdResponse_encode {id : Bytes} (short : id.length < 2 ^ 32) : (Message.idResponse id).RoundTrips := by
  refine run_of_parses_done _ (parses_readMap (by decide) (parses_lastEntry (by decide) ?_))
  rw [if_pos rfl]
  exact parses_readRaw short

theorem decodeBlocksResponse_encode {blockPayloads : List Bytes} (few : blockPayloads.length < 2 ^ 32)
    (short : ∀ payload ∈ blockPayloads, payload.length < 2 ^ 32) :
    (Message.blocksResponse blockPayloads).RoundTrips := by
  refine run_of_parses_done _ (parses_readMap (by decide) (parses_lastEntry (by decide) ?_))
  rw [if_pos rfl]
  exact (parses_readArraySize few).bind (parses_readPayloads short [])

end RoundTrip

/-- Every message of the protocol comes back from its encoding as it was. -/
theorem message_roundTrips (message : Message) (wellFormed : message.WellFormed) : message.RoundTrips := by
  cases message with
  | request service args =>
    obtain ⟨given, isValue⟩ := wellFormed
    exact run_of_parses (parses_readRequest given isValue)
  | success service payload =>
    obtain ⟨given, isValue⟩ := wellFormed
    exact run_of_parses (parses_readResponse (parses_readResponseHeader_success given.reads) isValue)
  | error service message errType =>
    obtain ⟨given, short, valid⟩ := wellFormed
    have nil : Value [mpNil] := .single (by decide)
    exact run_of_parses (parses_readResponse (parses_readResponseHeader_error given.reads short valid) nil)
  | ancestorRequest parentId childHeight => exact decodeGetAncestorBlockIdRequest_encode wellFormed.1 wellFormed.2
  | blocksRequest headBlockId startBlockHeight numBlocks =>
    obtain ⟨short, fits, few⟩ := wellFormed
    exact decodeGetBlocksRequest_encode short fits few
  | idResponse id => exact decodeIdResponse_encode wellFormed
  | headBlockResponse id height => exact decodeHeadBlockResponse_encode wellFormed.1 wellFormed.2
  | blocksResponse blockPayloads => exact decodeBlocksResponse_encode wellFormed.1 wellFormed.2

/-- An array of a map and a string. -/
def sampleArgs : Bytes := [0x92, 0x81, 0x01, 0xc0, 0xa1, 0x61]

def sampleService : ServiceID := { name := literal "PeerRPCService", method := literal "GetBlocks" }

theorem sampleArgs_value : Value sampleArgs := by
  have one : Value [0x01] := .single (by decide)
  have nil : Value [mpNil] := .single (by decide)
  have string : Value [0xa1, 0x61] := @Value.raw 0xa1 [] [0x61] (.fixed (n := 1) (by decide))
  have map : Value [0x81, 0x01, 0xc0] :=
    @Value.map 0x81 [] 1 [[0x01], [mpNil]] (.fixed (n := 1) (by decide)) rfl
      (forall_mem_cons.mpr ⟨one, forall_mem_singleton.mpr nil⟩)
  exact @Value.array 0x92 [] [[0x81, 0x01, 0xc0], [0xa1, 0x61]] (.fixed (n := 2) (by decide))
    (forall_mem_cons.mpr ⟨map, forall_mem_singleton.mpr string⟩)

theorem sampleService_given : sampleService.Given := ⟨by decide, by decide, by decide, by decide⟩

theorem message_roundTrips_sample :
    (Message.request sampleService sampleArgs).WellFormed ∧ (Message.request sampleService sampleArgs).RoundTrips :=
  ⟨⟨sampleService_given, sampleArgs_value⟩,
    message_roundTrips (.request sampleService sampleArgs) ⟨sampleService_given, sampleArgs_value⟩⟩

end Teleno.P2p
