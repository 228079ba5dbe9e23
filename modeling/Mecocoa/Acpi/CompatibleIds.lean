import Mathlib.Tactic

/-! # Compatible ids of ACPI devices

The ids of a `_CID` value are decoded, joined with commas into one text of bounded length,
copied to the node of the device, and split again when a driver is looked for.
-/

namespace Mecocoa.Acpi

open List

/-- A text without its terminating zero. -/
abbrev Text := List UInt8

def acpiIdCapacity : Nat := 48

def comma : UInt8 := 0x2C

/-! ## Texts -/

/-- `copy_text` and `copy_text_range`, into an id. -/
def copyText (source : Text) : Text := source.take (acpiIdCapacity - 1)

def appendText (destination source : Text) : Text :=
  destination ++ source.take (acpiIdCapacity - 1 - destination.length)

def hexDigit (digit : Nat) : UInt8 := .ofNat (if digit < 10 then 0x30 + digit else 0x37 + digit)

/-- The loop of `append_hex`, from digit `i` down. -/
def appendDigits (value : Nat) : Nat → Bool → Text → Text
  | 0, _, destination => destination
  | i + 1, started, destination =>
    let digit := value / 16 ^ i % 16
    if !started && digit == 0 && i != 0 then appendDigits value i false destination
    else appendDigits value i true (appendText destination [hexDigit digit])

def appendHex (destination : Text) (value : Nat) : Text :=
  appendDigits value 16 false (appendText destination [0x30, 0x78])

/-! ## Decoding -/

def encodeEisaId (encoded : UInt32) : Text :=
  let value := encoded >>> 24 ||| (encoded >>> 8) &&& (0xFF00 : UInt32) |||
    (encoded <<< 8) &&& (0xFF0000 : UInt32) ||| encoded <<< 24
  let first := value >>> 26 &&& 0x1F
  let second := value >>> 21 &&& 0x1F
  let third := value >>> 16 &&& 0x1F
  if first = 0 ∨ 26 < first ∨ second = 0 ∨ 26 < second ∨ third = 0 ∨ 26 < third then
    appendHex [] encoded.toNat
  else [first, second, third].map (fun letter => .ofNat (0x40 + letter.toNat)) ++
    [value >>> 12, value >>> 8, value >>> 4, value].map fun digit => hexDigit (digit &&& 0xF).toNat

def littleEndian (bytes : List UInt8) : Nat := bytes.foldr (fun b n => b.toNat + 256 * n) 0

/-- An integer of so many bytes. -/
def decodeBytes (width : Nat) (cursor : List UInt8) : Option (Nat × List UInt8) :=
  if cursor.length < width then none else some (littleEndian (cursor.take width), cursor.drop width)

def decodeAmlInteger : List UInt8 → Option (Nat × List UInt8)
  | [] => none
  | opcode :: cursor =>
    if opcode = 0x00 then some (0, cursor)
    else if opcode = 0x01 then some (1, cursor)
    else if opcode = 0xFF then some (2 ^ 64 - 1, cursor)
    else if opcode = 0x0A then decodeBytes 1 cursor
    else if opcode = 0x0B then decodeBytes 2 cursor
    else if opcode = 0x0C then decodeBytes 4 cursor
    else if opcode = 0x0E then decodeBytes 8 cursor
    else none

def decodeAmlString : List UInt8 → Option (Text × List UInt8)
  | [] => none
  | opcode :: text =>
    if opcode ≠ 0x0D ∨ 0 ∉ text then none
    else some (copyText (text.takeWhile (· ≠ 0)), (text.dropWhile (· ≠ 0)).tail)

def decodeAmlId (cursor : List UInt8) : Option (Text × List UInt8) :=
  match decodeAmlString cursor with
  | some found => some found
  | none => (decodeAmlInteger cursor).map fun found => (encodeEisaId (.ofNat found.1), found.2)

/-- The length of the package and that of its encoding. -/
def decodeAmlPackageLength : List UInt8 → Option (Nat × Nat)
  | [] => none
  | lead :: rest =>
    let following := lead.toNat / 64
    let length := if following = 0 then lead.toNat % 64
      else lead.toNat % 16 + 16 * littleEndian (rest.take following)
    if rest.length < following ∨ length < following + 1 then none
      else some (length, following + 1)

/-- What is in the package. -/
def amlPackageEnd (cursor : List UInt8) : Option (List UInt8) :=
  match decodeAmlPackageLength cursor with
  | none => none
  | some (length, encoded) =>
    if cursor.length < length then none else some ((cursor.take length).drop encoded)

section Package

-- `skip_aml_data_object`, for an element that is no id.
variable (skip : List UInt8 → List UInt8)

/-- The loop of `decode_aml_cid_package`. -/
def decodeCids : Nat → Text → List UInt8 → Text
  | 0, output, _ => output
  | count + 1, output, cursor =>
    if cursor = [] then output
    else
      match decodeAmlId cursor with
      | some (id, rest) =>
        let output := if output = [] then output else appendText output [comma]
        decodeCids count (appendText output id) rest
      | none => decodeCids count output (skip cursor)

def decodeAmlCidPackage : List UInt8 → Text
  | [] => []
  | opcode :: cursor =>
    if opcode ≠ 0x12 then []
    else
      match amlPackageEnd cursor with
      | some (count :: content) => decodeCids skip count.toNat [] content
      | _ => []

/-- The `compatible_ids` of the node, from the `_CID` that `apply_named_object` found. -/
def compatibleIds (value : List UInt8) : Text :=
  copyText (if value.head? = some 0x12 then decodeAmlCidPackage skip value
    else ((decodeAmlId value).map (·.1)).getD [])

end Package

/-! ## Matching -/

/-- The loop of `driver_match_acpi_compatible_id`, which comes to an end of the text within its
length. -/
def driverMatchFrom (expected : Text) : Nat → Text → Bool
  | 0, _ => false
  | rounds + 1, cursor =>
    let word := cursor.takeWhile (· ≠ comma)
    if cursor = [] then false
    else word == expected || driverMatchFrom expected rounds (cursor.drop (word.length + 1))

def driverMatchAcpiCompatibleId (ids expected : Text) : Bool :=
  driverMatchFrom expected ids.length ids

/-! ## Values -/

/-- The bytes are an id, which reads as the text. -/
inductive IsId : List UInt8 → Text → Prop
  | string (whole : 0 ∉ text) : IsId (0x0D :: (text ++ [0])) text
  | constant (known : (opcode, n) ∈ [(0x00, 0), (0x01, 1), (0xFF, 2 ^ 64 - 1)]) :
    IsId [opcode] (encodeEisaId (.ofNat n))
  | integer (known : (opcode, data.length) ∈ [(0x0A, 1), (0x0B, 2), (0x0C, 4), (0x0E, 8)]) :
    IsId (opcode :: data) (encodeEisaId (.ofNat (littleEndian data)))

/-- A `_CID` value, with its ids. -/
inductive IsCid : List UInt8 → List Text → Prop
  | single (id : IsId bytes text) (rest : List UInt8) : IsCid (bytes ++ rest) [text]
  | package (elements : List (List UInt8 × Text)) (each : ∀ e ∈ elements, IsId e.1 e.2)
    (count : UInt8)
    (counted : elements.length ≤ count.toNat)
    (content : amlPackageEnd bytes = some (count :: elements.flatMap (·.1))) :
    IsCid (0x12 :: bytes) (elements.map (·.2))

theorem IsId.opcode (id : IsId bytes text) :
    ∃ opcode data, bytes = opcode :: data ∧ opcode ≠ 0x12 := by
  cases id with
  | string => exact ⟨_, _, rfl, by decide⟩
  | constant known | integer known =>
    refine ⟨_, _, rfl, ?_⟩
    rintro rfl
    simp at known

/-! ### Texts that are cut -/

/-- Whatever does not fit is dropped, piece by piece as from the whole. -/
theorem appendText_copyText (text source : Text) :
    appendText (copyText text) source = copyText (text ++ source) := by
  simp only [appendText, copyText, take_append, length_take]
  congr 2
  omega

theorem copyText_append_copyText (text source : Text) :
    copyText (text ++ copyText source) = copyText (text ++ source) := by
  simp only [copyText, take_append, take_take]
  congr 2
  omega

theorem length_appendDigits (short : destination.length < acpiIdCapacity) :
    (appendDigits value i started destination).length < acpiIdCapacity := by
  induction i generalizing started destination with
  | zero => exact short
  | succ i ih =>
    unfold appendDigits
    dsimp only
    split
    · exact ih short
    · refine ih ?_
      simp only [appendText, length_append, length_take]
      omega

theorem copyText_encodeEisaId (encoded : UInt32) :
    copyText (encodeEisaId encoded) = encodeEisaId encoded := by
  refine take_of_length_le (Nat.le_sub_one_of_lt ?_)
  unfold encodeEisaId
  dsimp only
  split
  · exact length_appendDigits (by decide)
  · simp [acpiIdCapacity]

theorem IsId.decode (id : IsId bytes text) (rest : List UInt8) :
    decodeAmlId (bytes ++ rest) = some (copyText text, rest) := by
  cases id with
  | string whole =>
    have inside : 0 ∈ text ++ 0 :: rest := by simp
    have all : ∀ b ∈ text, decide (b ≠ 0) = true := by
      intro b member
      simpa using fun zero : b = 0 => whole (zero ▸ member)
    simp only [cons_append, append_assoc, nil_append, decodeAmlId, decodeAmlString]
    rw [if_neg (by simp [inside]), takeWhile_append_of_pos all, dropWhile_append_of_pos all]
    simp
  | constant known =>
    rw [copyText_encodeEisaId]
    simp only [mem_cons, Prod.mk.injEq, not_mem_nil, or_false] at known
    rcases known with ⟨rfl, rfl⟩ | ⟨rfl, rfl⟩ | ⟨rfl, rfl⟩ <;> rfl
  | @integer opcode data known =>
    rw [copyText_encodeEisaId]
    have taken : decodeBytes data.length (data ++ rest) = some (littleEndian data, rest) := by
      simp [decodeBytes]
    simp only [mem_cons, Prod.mk.injEq, not_mem_nil, or_false] at known
    rcases known with ⟨rfl, width⟩ | ⟨rfl, width⟩ | ⟨rfl, width⟩ | ⟨rfl, width⟩ <;>
      (rw [width] at taken; simp [decodeAmlId, decodeAmlString, decodeAmlInteger, taken])

/-! ## The list of ids -/

/-- The ids with commas between them. -/
def joined (ids : List Text) : Text := (ids.flatMap (comma :: ·)).tail

/-- The ids from the first one that is not empty, which begins the list. -/
def listed (ids : List Text) : List Text := ids.dropWhile (· = [])

theorem joined_cons (id : Text) (ids : List Text) :
    joined (id :: ids) = id ++ ids.flatMap (comma :: ·) := by
  simp [joined]

/-- The list has text as soon as it has an id. -/
theorem joined_listed (ids : List Text) : joined (listed ids) = [] ↔ listed ids = [] := by
  cases is : listed ids with
  | nil => simp [joined]
  | cons first later =>
    have begun : first ≠ [] := by
      have := head?_dropWhile_not (fun id : Text => decide (id = [])) ids
      rw [← listed, is] at this
      simpa using this
    simp [joined_cons, begun]

/-- One more id at the end of the list. -/
theorem appendText_joined (ids : List Text) (id : Text) :
    appendText (if copyText (joined (listed ids)) = [] then copyText (joined (listed ids))
      else appendText (copyText (joined (listed ids))) [comma]) (copyText id) =
      copyText (joined (listed (ids ++ [id]))) := by
  have empty : copyText (joined (listed ids)) = [] ↔ listed ids = [] := by
    rw [← joined_listed, copyText, take_eq_nil_iff]
    simp [acpiIdCapacity]
  by_cases none : listed ids = []
  · have last : listed (ids ++ [id]) = listed [id] := by
      rw [listed, dropWhile_append, ← listed, none]
      rfl
    have same : joined (listed [id]) = id := by
      by_cases nothing : id = [] <;> simp [listed, joined, nothing]
    rw [if_pos (empty.mpr none), last, same, none, show joined [] = [] from rfl,
      appendText_copyText, copyText_append_copyText, nil_append]
  · obtain ⟨first, later, is⟩ := exists_cons_of_ne_nil none
    have last : listed (ids ++ [id]) = listed ids ++ [id] := by
      rw [listed, dropWhile_append, ← listed, is]
      rfl
    rw [if_neg (mt empty.mp none), last, appendText_copyText, appendText_copyText,
      copyText_append_copyText]
    congr 1
    simp [is, joined_cons]

theorem decodeCids_eq (skip : List UInt8 → List UInt8) {elements : List (List UInt8 × Text)}
    (each : ∀ e ∈ elements, IsId e.1 e.2) (ids : List Text) {count : Nat}
    (counted : elements.length ≤ count) :
    decodeCids skip count (copyText (joined (listed ids))) (elements.flatMap (·.1)) =
      copyText (joined (listed (ids ++ elements.map (·.2)))) := by
  induction elements generalizing ids count with
  | nil => cases count <;> simp [decodeCids]
  | cons e elements ih =>
    obtain ⟨count, rfl⟩ :=
      Nat.exists_eq_add_of_le' (Nat.lt_of_lt_of_le (Nat.succ_pos _) counted)
    obtain ⟨id, later⟩ := forall_mem_cons.mp each
    obtain ⟨opcode, data, bytes, -⟩ := id.opcode
    have more : e.1 ++ elements.flatMap (·.1) ≠ [] := by simp [bytes]
    simp only [flatMap_cons, decodeCids, if_neg more, id.decode]
    rw [appendText_joined, ih later (ids ++ [e.2]) (Nat.le_of_succ_le_succ counted), append_assoc]
    rfl

theorem compatibleIds_eq (value : IsCid bytes ids) (skip : List UInt8 → List UInt8) :
    compatibleIds skip bytes = copyText (joined (listed ids)) := by
  have twice (text : Text) : copyText (copyText text) = copyText text := by
    simpa using copyText_append_copyText [] text
  unfold compatibleIds
  cases value with
  | @single bytes text id rest =>
    obtain ⟨opcode, data, rfl, other⟩ := id.opcode
    have same : joined (listed [text]) = text := by
      by_cases nothing : text = [] <;> simp [listed, joined, nothing]
    rw [id.decode, same, cons_append, head?_cons, if_neg (by simpa using other)]
    exact twice text
  | package elements each count counted content =>
    have decoded := decodeCids_eq skip each [] counted
    simp only [head?_cons, if_pos, decodeAmlCidPackage, content]
    exact (congrArg copyText decoded).trans (twice _)

/-! ## What can be read in the list -/

/-- Where the next id begins. -/
def start (before : List Text) : Nat := (before.map (·.length + 1)).sum

/-- The id ends within the list and, if it is empty, a comma follows. -/
def Recorded (room : Nat) (ids : List Text) (x : Text) : Prop :=
  ∃ before y after, ids = before ++ y :: after ∧
    (x = y ∧ start before + y.length ≤ room ∧
    (y = [] → after ≠ [] ∧ start before < room))

/-- The id at the end of the list is cut, and this is left of it. -/
def CutTo (room : Nat) (ids : List Text) (x : Text) : Prop :=
  ∃ before y after, ids = before ++ y :: after ∧
    (start before < room ∧ room < start before + y.length ∧ x = y.take (room - start before))

theorem exists_split_cons {P : List Text → Text → List Text → Prop} {first : Text} :
    (∃ before y after, first :: ids = before ++ y :: after ∧ P before y after) ↔
      P [] first ids ∨ ∃ before y after, ids = before ++ y :: after ∧
      P (first :: before) y after := by
  constructor
  · rintro ⟨before, y, after, is, holds⟩
    cases before with
    | nil =>
      cases is
      exact .inl holds
    | cons other before =>
      cases is
      exact .inr ⟨before, y, after, rfl, holds⟩
  · rintro (holds | ⟨before, y, after, rfl, holds⟩)
    · exact ⟨[], first, ids, rfl, holds⟩
    · exact ⟨first :: before, y, after, rfl, holds⟩

theorem recorded_cons {first : Text} : Recorded room (first :: ids) x ↔
    (x = first ∧ first.length ≤ room ∧ (first = [] → ids ≠ [] ∧ 0 < room)) ∨
      Recorded (room - (first.length + 1)) ids x := by
  unfold Recorded
  rw [exists_split_cons]
  refine or_congr (by simp [start]) (exists₃_congr fun before y after =>
    and_congr_right fun _ => and_congr_right fun _ => ?_)
  simp only [start, map_cons, sum_cons]
  generalize (before.map (·.length + 1)).sum = offset
  by_cases empty : y = []
  · simp only [empty, length_nil, forall_const]
    constructor <;> rintro ⟨-, more, low⟩ <;> exact ⟨by omega, more, by omega⟩
  · have := length_pos_iff.mpr empty
    simp only [empty, false_implies, and_true]
    omega

theorem cutTo_cons {first : Text} : CutTo room (first :: ids) x ↔
    (0 < room ∧ room < first.length ∧ x = first.take room) ∨
      CutTo (room - (first.length + 1)) ids x := by
  unfold CutTo
  rw [exists_split_cons]
  refine or_congr (by simp [start])
    (exists₃_congr fun before y after => and_congr_right fun _ => ?_)
  simp only [start, map_cons, sum_cons]
  generalize (before.map (·.length + 1)).sum = offset
  rw [Nat.sub_sub]
  constructor <;> rintro ⟨low, high, rfl⟩ <;> exact ⟨by omega, by omega, rfl⟩

theorem not_recorded_zero : ¬ Recorded 0 ids x := by
  rintro ⟨before, y, after, -, -, fits, empty⟩
  have := (empty (length_eq_zero_iff.mp (by omega))).2
  omega

theorem not_cutTo_zero : ¬ CutTo 0 ids x := by
  rintro ⟨before, y, after, -, low, -⟩
  omega

theorem driverMatchFrom_nil (x : Text) (rounds : Nat) : driverMatchFrom x rounds [] = false := by
  cases rounds <;> simp [driverMatchFrom]

/-- One word, and what comes after its comma. -/
theorem driverMatchFrom_word {word tail : Text} (plain : comma ∉ word)
    (separated : tail = [] ∨ tail.head? = some comma) (some : word ++ tail ≠ []) :
    driverMatchFrom x (rounds + 1) (word ++ tail) = true ↔
      word = x ∨ driverMatchFrom x rounds tail.tail = true := by
  have first : (word ++ tail).takeWhile (· ≠ comma) = word := by
    rw [takeWhile_append_of_pos
      fun b member => by simpa using fun same : b = comma => plain (same ▸ member)]
    rcases separated with rfl | separated
    · simp
    · obtain ⟨rest, rfl⟩ := head?_eq_some_iff.mp separated
      simp
  have rest : (word ++ tail).drop (word.length + 1) = tail.tail := by
    rw [drop_append, ← drop_one]
    simp
  simp only [driverMatchFrom]
  rw [if_neg some, first, rest, Bool.or_eq_true, beq_iff_eq]

theorem driverMatchFrom_last {word : Text} (plain : comma ∉ word)
    (enough : word.length ≤ rounds) :
    driverMatchFrom x rounds word = true ↔ word ≠ [] ∧ x = word := by
  by_cases empty : word = []
  · simp [empty, driverMatchFrom_nil]
  obtain ⟨rounds, rfl⟩ : ∃ n, rounds = n + 1 :=
    Nat.exists_eq_add_of_le' (Nat.lt_of_lt_of_le (length_pos_iff.mpr empty) enough)
  have read : driverMatchFrom x (rounds + 1) (word ++ []) = true ↔ _ :=
    driverMatchFrom_word plain (.inl rfl) (by simpa using empty)
  rw [append_nil, tail_nil, driverMatchFrom_nil] at read
  simp [read, empty, eq_comm]

/-- The text is split where it was joined. -/
theorem driverMatchFrom_joined {ids : List Text} (plain : ∀ id ∈ ids, comma ∉ id) (x : Text)
    {room rounds : Nat} (enough : ((joined ids).take room).length ≤ rounds) :
    driverMatchFrom x rounds ((joined ids).take room) = true ↔
      Recorded room ids x ∨ CutTo room ids x := by
  induction ids generalizing room rounds with
  | nil => cases rounds <;> simp [joined, driverMatchFrom, Recorded, CutTo]
  | cons first ids ih =>
    obtain ⟨word, later⟩ := forall_mem_cons.mp plain
    rw [recorded_cons, cutTo_cons]
    rw [joined_cons, take_append] at enough ⊢
    rcases Nat.lt_or_ge room first.length with cut | fits
    · -- The text ends in this id.
      rw [Nat.sub_eq_zero_of_le cut.le, take_zero, append_nil] at enough ⊢
      rw [driverMatchFrom_last (fun member => word (mem_of_mem_take member)) enough,
        Nat.sub_eq_zero_of_le (by omega)]
      have := length_pos_iff.mp (Nat.zero_lt_of_lt cut)
      simp [not_recorded_zero, not_cutTo_zero, Nat.not_le.mpr cut, cut, this, Nat.pos_iff_ne_zero]
    rw [take_of_length_le fits] at enough ⊢
    rcases Nat.eq_or_lt_of_le fits with exactly | fits
    · -- It ends with this id.
      rw [← exactly, Nat.sub_self, take_zero, append_nil] at enough ⊢
      rw [driverMatchFrom_last word enough, Nat.sub_eq_zero_of_le (by omega)]
      by_cases none : first = [] <;> simp [not_recorded_zero, not_cutTo_zero, none]
    cases ids with
    | nil =>
      rw [flatMap_nil, take_nil, append_nil] at enough ⊢
      rw [driverMatchFrom_last word enough]
      by_cases none : first = [] <;> simp [Recorded, CutTo, none, fits.le, fits.not_gt]
    | cons second ids =>
      -- It goes on after a comma.
      obtain ⟨more, is⟩ : ∃ more, room - first.length = more + 1 :=
        ⟨room - first.length - 1, by omega⟩
      have tail : ((second :: ids).flatMap (comma :: ·)).take (room - first.length) =
          comma :: (joined (second :: ids)).take (room - (first.length + 1)) := by
        rw [is, show room - (first.length + 1) = more by omega, joined_cons]
        simp
      rw [tail] at enough ⊢
      simp only [length_append, length_cons] at enough
      obtain ⟨rounds, rfl⟩ : ∃ n, rounds = n + 1 := Nat.exists_eq_add_of_le' (by omega)
      rw [driverMatchFrom_word word (.inr rfl) (by simp), tail_cons, ih later (by omega)]
      simp [fits.le, fits.not_gt, Nat.zero_lt_of_lt fits, eq_comm, or_assoc]

/-- A driver is found by an id exactly when it is one of the device, if and only if the ids of
the device are recorded with it in full, and it is not what is left of one that is cut. -/
theorem compatible_ids_matched (value : IsCid bytes ids) (plain : ∀ id ∈ ids, comma ∉ id)
    (skip : List UInt8 → List UInt8) (x : Text) :
    (driverMatchAcpiCompatibleId (compatibleIds skip bytes) x = true ↔ x ∈ ids) ↔
      if x ∈ ids then Recorded (acpiIdCapacity - 1) (listed ids) x ∨
        CutTo (acpiIdCapacity - 1) (listed ids) x
      else ¬ CutTo (acpiIdCapacity - 1) (listed ids) x := by
  have plain' : ∀ id ∈ listed ids, comma ∉ id := fun id member =>
    plain id (dropWhile_sublist _ |>.subset member)
  have member : Recorded (acpiIdCapacity - 1) (listed ids) x → x ∈ ids := by
    rintro ⟨before, y, after, is, rfl, -⟩
    exact dropWhile_sublist _ |>.subset (by rw [← listed, is]; simp)
  rw [compatibleIds_eq value, driverMatchAcpiCompatibleId, copyText,
    driverMatchFrom_joined plain' x (le_refl _)]
  split
  · rename_i there
    simp [there]
  · rename_i absent
    simp [absent, mt member absent]

/-- `PNP0C50` and the ids after it. -/
def idAt (i : UInt8) : Text := [0x50, 0x4E, 0x50, 0x30, 0x43, 0x35, 0x30 + i]

theorem isId_idAt : ∀ i ∈ [0, 1, 2, 3, 4, 5, 6], IsId (0x0D :: (idAt i ++ [0])) (idAt i) := by
  have whole : ∀ i ∈ [0, 1, 2, 3, 4, 5, 6], 0 ∉ idAt i := by decide +kernel
  exact fun i there => .string (whole i there)

def pnp0A03 : Text := [0x50, 0x4E, 0x50, 0x30, 0x41, 0x30, 0x33]

/-- One id is a text and one a number. -/
theorem compatible_ids_matched_number : driverMatchAcpiCompatibleId (compatibleIds id
    ([0x12, 0x10, 2, 0x0D] ++ idAt 0 ++ [0, 0x0C, 0x41, 0xD0, 0x0A, 0x03])) pnp0A03 = true := by
  have number : encodeEisaId (.ofNat (littleEndian [0x41, 0xD0, 0x0A, 0x03])) =
    pnp0A03 := by decide +kernel
  have second : IsId [0x0C, 0x41, 0xD0, 0x0A, 0x03] pnp0A03 := number ▸ IsId.integer (by decide)
  have value := IsCid.package [(_, idAt 0), (_, pnp0A03)]
    (forall_mem_cons.mpr ⟨isId_idAt 0 (.head _), forall_mem_singleton.mpr second⟩) 2 (by decide)
    (show amlPackageEnd ([0x10, 2, 0x0D] ++ idAt 0 ++ [0, 0x0C, 0x41, 0xD0, 0x0A, 0x03]) =
    _ by decide +kernel)
  refine ((compatible_ids_matched value (by decide) id pnp0A03).mpr ?_).mpr (by decide)
  rw [if_pos (by decide)]
  exact .inl ⟨[idAt 0], pnp0A03, [], by decide, rfl, by decide, by decide⟩

def sevenIds : List UInt8 :=
  [0x12, 0x42, 0x04, 7] ++ [0, 1, 2, 3, 4, 5, 6].flatMap fun i => 0x0D :: (idAt i ++ [0])

/-- The text is full after six ids. -/
theorem seventh_id_lost : IsCid sevenIds ([0, 1, 2, 3, 4, 5, 6].map idAt) ∧
    (∀ i ∈ [0, 1, 2, 3, 4, 5, 6], comma ∉ idAt i) ∧
    driverMatchAcpiCompatibleId (compatibleIds id sevenIds) (idAt 6) = false := by
  refine ⟨?_, by decide +kernel, by decide +kernel⟩
  refine .package ([0, 1, 2, 3, 4, 5, 6].map fun i => (0x0D :: (idAt i ++ [0]), idAt i)) ?_ 7
    (by decide)
    (by decide +kernel)
  exact forall_mem_map.mpr isId_idAt

end Mecocoa.Acpi
