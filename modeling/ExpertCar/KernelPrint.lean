import ExpertCar.HumidityReading
import ExpertCar.PrintNumber
import Mathlib.Data.List.GetD

/-!
# Lines on the console

`rt_vsnprintf` and `rt_kprintf`. The format is read once from left to right, and each
directive puts a text of its own; an argument that is missing or of another kind, or
`int` arithmetic that overflows, leaves the call without a meaning. Every character goes
through the same test against the end of the buffer, so a text that does not run past the
last address stores its front part with a zero behind it and nothing else, and a line too
long for the console's buffer is sent with that zero. A format and a string are the
characters before their zeros.
-/
namespace ExpertCar.KernelPrint
open CheckedInt DecimalText PrintNumber

/-- What `va_arg` takes: a word, or the characters of a string, if there is one. -/
inductive Arg where
  | int (n : BitVec 32)
  | str (s : Option (List Char))

/-- What is left to read: the format after `fmt`, and the arguments. -/
abbrev Rest := List Char × List Arg

def takeFlags (flags : Flags) : List Char → Flags × List Char
  | [] => (flags, [])
  | c :: fmt =>
      if c = '-' then takeFlags { flags with left := true } fmt
      else if c = '+' then takeFlags { flags with plus := true } fmt
      else if c = ' ' then takeFlags { flags with space := true } fmt
      else if c = '#' then takeFlags { flags with special := true } fmt
      else if c = '0' then takeFlags { flags with zeropad := true } fmt
      else (flags, c :: fmt)

/-- The character is added before `'0'` is taken off again. -/
def skipAtoi (i : ℤ) : List Char → Option (ℤ × List Char)
  | [] => some (i, [])
  | c :: fmt =>
      if c.isDigit then (checked (i * 10 + c.toNat)).bind fun i => skipAtoi (i - 48) fmt
      else some (i, c :: fmt)

/-- The field width, or -1; a negative one among the arguments asks for the left. -/
def takeWidth (flags : Flags) (fmt : List Char) (args : List Arg) : Option (ℤ × Flags × Rest) :=
  match fmt, args with
  | '*' :: fmt, .int n :: args =>
      if n.toInt < 0 then
        (checked (-n.toInt)).map fun width => (width, { flags with left := true }, fmt, args)
      else some (n.toInt, flags, fmt, args)
  | '*' :: _, _ => none
  | c :: fmt, args =>
      if c.isDigit then
        (skipAtoi 0 (c :: fmt)).map fun (width, fmt) => (width, flags, fmt, args)
      else some (-1, flags, c :: fmt, args)
  | [], args => some (-1, flags, [], args)

/-- The precision after a point, not negative, or -1. -/
def takePrecision (fmt : List Char) (args : List Arg) : Option (ℤ × Rest) :=
  match fmt, args with
  | '.' :: '*' :: fmt, .int n :: args => some (max n.toInt 0, fmt, args)
  | '.' :: '*' :: _, _ => none
  | '.' :: fmt, args => (skipAtoi 0 fmt).map fun (precision, fmt) => (precision, fmt, args)
  | fmt, args => some (-1, fmt, args)

def takeQualifier : List Char → Option Char × List Char
  | [] => (none, [])
  | c :: fmt => if c = 'h' ∨ c = 'l' then (some c, fmt) else (none, c :: fmt)

/-- A character in a field. -/
def putChar (flags : Flags) (width : ℤ) (c : Char) : List Char :=
  let blanks := List.replicate (width - 1).toNat ' '
  if flags.left then c :: blanks else blanks ++ [c]

/-- A string in a field; the loop that measures it stops at the width. -/
def putString (flags : Flags) (width precision : ℤ) (s : Option (List Char)) :
    Option (List Char) := do
  let s := s.getD "(NULL)".toList
  let len ← checked (if width < 0 then s.length else min s.length width)
  let len := if precision > 0 ∧ len > precision then precision else len
  let blanks := List.replicate (width - len).toNat ' '
  return if flags.left then s.take len.toNat ++ blanks else blanks ++ s.take len.toNat

def numberOf (qualifier : Option Char) (signed : Bool) (n : BitVec 32) : BitVec 32 :=
  if qualifier = some 'h' then
    if signed then (n.setWidth 16).signExtend 32 else (n.setWidth 16).setWidth 32
  else n

/-- The switch on the character that ends a directive; at the end of the format only
the percent sign is put. -/
def convert (flags : Flags) (width precision : ℤ) (qualifier : Option Char) (fmt : List Char)
    (args : List Arg) : Option (List Char × Rest) :=
  match fmt with
  | [] => some (['%'], [], args)
  | c :: fmt =>
      let number (base : ℕ) (flags : Flags) : Option (List Char × Rest) :=
        match args with
        | .int n :: args =>
            (printNumber (numberOf qualifier flags.sign n) base width precision flags).map
              fun text => (text, fmt, args)
        | _ => none
      if c = 'c' then
        match args with
        | .int n :: args => some (putChar flags width (Char.ofNat (n.toNat % 256)), fmt, args)
        | _ => none
      else if c = 's' then
        match args with
        | .str s :: args => (putString flags width precision s).map fun text => (text, fmt, args)
        | _ => none
      else if c = 'p' then
        match args with
        | .int n :: args =>
            let (width, flags) := if width = -1 then (8, { flags with zeropad := true })
              else (width, flags)
            (printNumber n 16 width precision flags).map fun text => (text, fmt, args)
        | _ => none
      else if c = '%' then some (['%'], fmt, args)
      else if c = 'o' then number 8 flags
      else if c = 'X' then number 16 { flags with large := true }
      else if c = 'x' then number 16 flags
      else if c = 'd' ∨ c = 'i' then number 10 { flags with sign := true }
      else if c = 'u' then number 10 flags
      else some (['%', c], fmt, args)

/-- The text of a directive, after its percent sign. -/
def directive (fmt : List Char) (args : List Arg) : Option (List Char × Rest) := do
  let (flags, fmt) := takeFlags Flags.none fmt
  let (width, flags, fmt, args) ← takeWidth flags fmt args
  let (precision, fmt, args) ← takePrecision fmt args
  let (qualifier, fmt) := takeQualifier fmt
  convert flags width precision qualifier fmt args

/-! ### The format gets shorter -/

theorem takeFlags_length (flags : Flags) (fmt : List Char) :
    (takeFlags flags fmt).2.length ≤ fmt.length := by
  induction fmt generalizing flags with
  | nil => exact le_rfl
  | cons c fmt ih =>
      unfold takeFlags
      split_ifs
      all_goals first | exact (ih _).trans (Nat.le_succ _) | exact le_rfl

theorem skipAtoi_length {i : ℤ} {fmt : List Char} {r : ℤ × List Char}
    (h : skipAtoi i fmt = some r) : r.2.length ≤ fmt.length := by
  induction fmt generalizing i with
  | nil =>
      obtain rfl := Option.some.inj h
      exact le_rfl
  | cons c fmt ih =>
      unfold skipAtoi at h
      split_ifs at h
      · obtain ⟨i', _, h⟩ := Option.bind_eq_some_iff.mp h
        exact (ih h).trans (Nat.le_succ _)
      · obtain rfl := Option.some.inj h
        exact le_rfl

theorem takeWidth_length {flags : Flags} {fmt : List Char} {args : List Arg}
    {r : ℤ × Flags × Rest} (h : takeWidth flags fmt args = some r) :
    r.2.2.1.length ≤ fmt.length := by
  unfold takeWidth at h
  split at h
  · split_ifs at h
    · obtain ⟨width, _, rfl⟩ := Option.map_eq_some_iff.mp h
      exact Nat.le_succ _
    · obtain rfl := Option.some.inj h
      exact Nat.le_succ _
  · cases h
  · split_ifs at h
    · obtain ⟨number, hnumber, rfl⟩ := Option.map_eq_some_iff.mp h
      exact skipAtoi_length hnumber
    · obtain rfl := Option.some.inj h
      exact le_rfl
  · obtain rfl := Option.some.inj h
    exact le_rfl

theorem takePrecision_length {fmt : List Char} {args : List Arg} {r : ℤ × Rest}
    (h : takePrecision fmt args = some r) : r.2.1.length ≤ fmt.length := by
  unfold takePrecision at h
  split at h
  · obtain rfl := Option.some.inj h
    exact (Nat.le_succ _).trans (Nat.le_succ _)
  · cases h
  · obtain ⟨number, hnumber, rfl⟩ := Option.map_eq_some_iff.mp h
    exact (skipAtoi_length hnumber).trans (Nat.le_succ _)
  · obtain rfl := Option.some.inj h
    exact le_rfl

theorem takeQualifier_length (fmt : List Char) : (takeQualifier fmt).2.length ≤ fmt.length := by
  unfold takeQualifier
  split
  · exact le_rfl
  · split_ifs
    · exact Nat.le_succ _
    · exact le_rfl

theorem convert_length {flags : Flags} {width precision : ℤ} {qualifier : Option Char}
    {fmt : List Char} {args : List Arg} {r : List Char × Rest}
    (h : convert flags width precision qualifier fmt args = some r) :
    r.2.1.length ≤ fmt.length := by
  unfold convert at h
  cases fmt with
  | nil =>
      obtain rfl := Option.some.inj h
      exact le_rfl
  | cons c fmt =>
      have hrest {x : List Char} {args : List Arg} (h : some (x, fmt, args) = some r) :
          r.2.1.length ≤ (c :: fmt).length := by
        obtain rfl := Option.some.inj h
        exact Nat.le_succ _
      have hput {x : Option (List Char)} {args : List Arg}
          (h : x.map (fun text => (text, fmt, args)) = some r) :
          r.2.1.length ≤ (c :: fmt).length := by
        obtain ⟨text, _, rfl⟩ := Option.map_eq_some_iff.mp h
        exact Nat.le_succ _
      dsimp only at h
      split_ifs at h
      all_goals first
        | exact hrest h
        | (split at h
           · first
             | exact hrest h
             | exact hput h
           · cases h)

theorem directive_length {fmt : List Char} {args : List Arg} {r : List Char × Rest}
    (h : directive fmt args = some r) : r.2.1.length ≤ fmt.length := by
  unfold directive at h
  obtain ⟨⟨width, flags, fmt', args'⟩, hwidth, h⟩ := Option.bind_eq_some_iff.mp h
  obtain ⟨⟨precision, fmt'', args''⟩, hprecision, h⟩ := Option.bind_eq_some_iff.mp h
  have hconvert : r.2.1.length ≤ (takeQualifier fmt'').2.length := convert_length h
  have hqualifier := takeQualifier_length fmt''
  have hpoint := takePrecision_length hprecision
  have hfield := takeWidth_length hwidth
  have hflags := takeFlags_length Flags.none fmt
  dsimp only at hpoint hfield
  omega

/-! ### The text -/

/-- The loop of `rt_vsnprintf`, by the characters it puts. -/
def formatText (fmt : List Char) (args : List Arg) : Option (List Char) :=
  match fmt with
  | [] => some []
  | c :: fmt =>
      if c = '%' then
        match _h : directive fmt args with
        | some (text, rest) => (formatText rest.1 rest.2).map (text ++ ·)
        | none => none
      else (formatText fmt args).map (c :: ·)
  termination_by fmt.length
  decreasing_by
    · exact Nat.lt_succ_of_le (directive_length _h)
    · exact Nat.lt_succ_self _

abbrev Address := BitVec 32

structure Buffer where
  mem : Address → Char
  str : Address

/-- `if (str < end) *str = c; ++ str;` -/
def put (stop : Address) (b : Buffer) (c : Char) : Buffer :=
  ⟨if b.str < stop then Function.update b.mem b.str c else b.mem, b.str + 1⟩

def nul : Char := Char.ofNat 0

/-- `end`, never below `buf`, and the `size` up to it. -/
def bufferEnd (buf size : Address) : Address × Address :=
  if buf + size < buf then (BitVec.allOnes 32, BitVec.allOnes 32 - buf) else (buf + size, size)

/-- The zero behind the text, or in the last place. -/
def terminate (stop size : Address) (b : Buffer) : Address → Char :=
  if size > 0 then
    if b.str < stop then Function.update b.mem b.str nul else Function.update b.mem (stop - 1) nul
  else b.mem

def rtVsnprintf (mem : Address → Char) (buf size : Address) (fmt : List Char) (args : List Arg) :
    Option ((Address → Char) × BitVec 32) := do
  let (stop, size) := bufferEnd buf size
  let text ← formatText fmt args
  let b := text.foldl (put stop) ⟨mem, buf⟩
  return (terminate stop size b, b.str - buf)

/-- `RT_CONSOLEBUF_SIZE` -/
def rtConsolebufSize : ℕ := 256

/-- The memory afterwards, and the characters the console device is given of the buffer
`rt_log_buf`. -/
def rtKprintf (mem : Address → Char) (rtLogBuf : Address) (fmt : List Char) (args : List Arg) :
    Option ((Address → Char) × List Char) := do
  let limit := BitVec.ofNat 32 (rtConsolebufSize - 1)
  let (mem, length) ← rtVsnprintf mem rtLogBuf limit fmt args
  let length := if length > limit then limit else length
  return (mem, (List.range length.toNat).map fun i => mem (rtLogBuf + BitVec.ofNat 32 i))

/-! ### The buffer -/

/-- How far an address is behind the first of the buffer. -/
def offset (buf a : Address) : ℕ := (a - buf).toNat

theorem place_toNat {buf : Address} {i : ℕ} (h : buf.toNat + i < 2 ^ 32) :
    (buf + BitVec.ofNat 32 i).toNat = buf.toNat + i := by
  rw [BitVec.toNat_add, BitVec.toNat_ofNat, Nat.add_mod_mod, Nat.mod_eq_of_lt h]

theorem offset_place {buf : Address} {i : ℕ} (h : i < 2 ^ 32) :
    offset buf (buf + BitVec.ofNat 32 i) = i := by
  rw [offset, BitVec.add_comm, BitVec.add_sub_cancel, BitVec.toNat_ofNat, Nat.mod_eq_of_lt h]

/-- A buffer ends at the last address at the latest. -/
theorem bufferEnd_spec (buf size : Address) :
    (bufferEnd buf size).1 = buf + (bufferEnd buf size).2 ∧
      buf.toNat + (bufferEnd buf size).2.toNat < 2 ^ 32 ∧
      (bufferEnd buf size).2.toNat = min size.toNat (2 ^ 32 - 1 - buf.toNat) := by
  have hbuf := buf.isLt
  have hsize := size.isLt
  unfold bufferEnd
  split_ifs with hwrap
  · have hones : (BitVec.allOnes 32 - buf).toNat = 2 ^ 32 - 1 - buf.toNat := by
      rw [BitVec.toNat_sub_of_le (BitVec.le_def.mpr _), BitVec.toNat_allOnes]
      rw [BitVec.toNat_allOnes]
      omega
    rw [BitVec.lt_def, BitVec.toNat_add] at hwrap
    refine ⟨?_, ?_, ?_⟩
    · rw [BitVec.add_comm, BitVec.sub_add_cancel]
    · dsimp only
      omega
    · dsimp only
      omega
  · rw [BitVec.lt_def, BitVec.toNat_add] at hwrap
    refine ⟨rfl, ?_, ?_⟩ <;> dsimp only <;> omega

theorem put_mem {stop : Address} {b : Buffer} (c : Char) {a : Address}
    (h : a ≠ b.str ∨ ¬ a < stop) : (put stop b c).mem a = b.mem a := by
  simp only [put]
  split_ifs with hroom
  · refine Function.update_of_ne (fun heq => ?_) _ _
    rcases h with h | h
    · exact h heq
    · exact h (heq ▸ hroom)
  · rfl

/-- The buffer holds as much of the text as it has room for. -/
structure Filled (buf room : Address) (mem : Address → Char) (text : List Char) (b : Buffer) :
    Prop where
  str : b.str = buf + BitVec.ofNat 32 text.length
  stored : ∀ i, i < text.length → i < room.toNat →
    b.mem (buf + BitVec.ofNat 32 i) = text.getD i nul
  kept : ∀ a, room.toNat ≤ offset buf a → b.mem a = mem a

theorem place_lt_iff {buf room : Address} (hroom : buf.toNat + room.toNat < 2 ^ 32) {i : ℕ}
    (hi : buf.toNat + i < 2 ^ 32) : buf + BitVec.ofNat 32 i < buf + room ↔ i < room.toNat := by
  have hend := place_toNat hroom
  rw [BitVec.ofNat_toNat, BitVec.setWidth_eq] at hend
  rw [BitVec.lt_def, place_toNat hi, hend]
  omega

theorem Filled.put {buf room : Address} {mem : Address → Char} {text : List Char} {b : Buffer}
    (hroom : buf.toNat + room.toNat < 2 ^ 32) (h : Filled buf room mem text b)
    (htext : buf.toNat + text.length < 2 ^ 32) (c : Char) :
    Filled buf room mem (text ++ [c]) (put (buf + room) b c) := by
  obtain ⟨hstr, hstored, hkept⟩ := h
  have hbelow : b.str < buf + room ↔ text.length < room.toNat := by
    rw [hstr]
    exact place_lt_iff hroom htext
  have hoffset : offset buf b.str = text.length := by
    rw [hstr]
    exact offset_place (by omega)
  refine ⟨?_, fun i hi hplace => ?_, fun a ha => ?_⟩
  · have hnext : (KernelPrint.put (buf + room) b c).str = b.str + 1 := rfl
    rw [hnext, hstr, BitVec.add_assoc, List.length_append, List.length_singleton, BitVec.ofNat_add]
    rfl
  · rw [List.length_append, List.length_singleton] at hi
    rcases Nat.lt_succ_iff_lt_or_eq.mp hi with hold | rfl
    · have hother : buf + BitVec.ofNat 32 i ≠ b.str := fun heq => by
        have hsame := congrArg (offset buf) heq
        rw [hoffset, offset_place (by omega)] at hsame
        exact absurd hsame hold.ne
      rw [put_mem c (Or.inl hother), hstored i hold hplace, List.getD_append _ _ _ _ hold]
    · have hnew : (KernelPrint.put (buf + room) b c).mem b.str = c := by
        simp only [KernelPrint.put, if_pos (hbelow.mpr hplace), Function.update_self]
      rw [← hstr, hnew, List.getD_append_right _ _ _ _ le_rfl, Nat.sub_self]
      rfl
  · have hother : a ≠ b.str ∨ ¬ a < buf + room := by
      by_contra hboth
      push Not at hboth
      obtain ⟨rfl, hlt⟩ := hboth
      rw [hoffset] at ha
      exact absurd (hbelow.mp hlt) (Nat.not_lt_of_le ha)
    rw [put_mem c hother, hkept a ha]

theorem filled_foldl {buf room : Address} {mem : Address → Char} {text : List Char} {b : Buffer}
    (hroom : buf.toNat + room.toNat < 2 ^ 32) (h : Filled buf room mem text b)
    {rest : List Char} (hrest : buf.toNat + (text ++ rest).length < 2 ^ 32) :
    Filled buf room mem (text ++ rest) (rest.foldl (put (buf + room)) b) := by
  induction rest generalizing text b with
  | nil =>
      rw [List.append_nil]
      exact h
  | cons c rest ih =>
      have htext : buf.toNat + text.length < 2 ^ 32 := by
        rw [List.length_append] at hrest
        omega
      rw [List.append_cons] at hrest ⊢
      exact ih (h.put hroom htext c) hrest

/-- The places from `buf` on that can be written. -/
def room (buf size : Address) : ℕ := min size.toNat (2 ^ 32 - 1 - buf.toNat)

theorem bufferEnd_pred {buf size : Address} (hsize : 0 < room buf size) :
    (bufferEnd buf size).1 - 1 = buf + BitVec.ofNat 32 (room buf size - 1) := by
  obtain ⟨hend, hwrap, hroom⟩ := bufferEnd_spec buf size
  change _ = room buf size at hroom
  have hstop : (bufferEnd buf size).1.toNat = buf.toNat + room buf size := by
    rw [hend, BitVec.toNat_add, Nat.mod_eq_of_lt hwrap, hroom]
  have hone : (1 : Address).toNat = 1 := rfl
  rw [hroom] at hwrap
  refine BitVec.eq_of_toNat_eq ?_
  rw [BitVec.toNat_sub_of_le (BitVec.le_def.mpr (by omega)), place_toNat (by omega), hstop, hone]
  omega

/-- The zero stands behind the text, or in the last place of the buffer. -/
theorem terminate_eq {buf size : Address} (hsize : 0 < room buf size) {length : ℕ}
    (hlength : buf.toNat + length < 2 ^ 32) {b : Buffer}
    (hstr : b.str = buf + BitVec.ofNat 32 length) :
    terminate (bufferEnd buf size).1 (bufferEnd buf size).2 b =
      Function.update b.mem (buf + BitVec.ofNat 32 (min length (room buf size - 1))) nul := by
  obtain ⟨hend, hwrap, hroom⟩ := bufferEnd_spec buf size
  change _ = room buf size at hroom
  have hpos : (bufferEnd buf size).2 > 0 := by
    rw [gt_iff_lt, BitVec.lt_def, hroom]
    exact hsize
  have hbelow : b.str < (bufferEnd buf size).1 ↔ length < room buf size := by
    rw [hstr, hend, ← hroom]
    exact place_lt_iff hwrap hlength
  rw [terminate, if_pos hpos]
  by_cases hfits : length < room buf size
  · rw [if_pos (hbelow.mpr hfits), hstr, min_eq_left (by omega)]
  · rw [if_neg (mt hbelow.mp hfits), bufferEnd_pred hsize, min_eq_right (by omega)]

/-- What any format leaves in a buffer with room, if its text ends below the last address:
the front of the text, a zero behind it, and nothing outside. -/
theorem rtVsnprintf_spec {mem : Address → Char} {buf size : Address} (hsize : 0 < room buf size)
    {fmt : List Char} {args : List Arg} {text : List Char} (htext : formatText fmt args = some text)
    (hlength : buf.toNat + text.length < 2 ^ 32) :
    ∃ mem', rtVsnprintf mem buf size fmt args = some (mem', BitVec.ofNat 32 text.length) ∧
      (∀ i, i < text.length → i < room buf size - 1 →
        mem' (buf + BitVec.ofNat 32 i) = text.getD i nul) ∧
      mem' (buf + BitVec.ofNat 32 (min text.length (room buf size - 1))) = nul ∧
      ∀ a, room buf size ≤ offset buf a → mem' a = mem a := by
  obtain ⟨hend, hwrap, hroom⟩ := bufferEnd_spec buf size
  change _ = room buf size at hroom
  have hempty : Filled buf (bufferEnd buf size).2 mem [] ⟨mem, buf⟩ :=
    ⟨(BitVec.add_zero buf).symm, fun i hi => absurd hi (Nat.not_lt_zero i), fun _ _ => rfl⟩
  obtain ⟨hstr, hstored, hkept⟩ := filled_foldl hwrap hempty hlength
  rw [List.nil_append, ← hend, hroom] at hstored
  rw [List.nil_append, ← hend] at hstr
  rw [← hend, hroom] at hkept
  refine ⟨terminate (bufferEnd buf size).1 (bufferEnd buf size).2
    (text.foldl (put (bufferEnd buf size).1) ⟨mem, buf⟩), ?_, ?_⟩
  · simp only [rtVsnprintf, htext, Option.bind_eq_bind, Option.bind_some]
    rw [hstr, BitVec.add_comm, BitVec.add_sub_cancel]
    rfl
  · rw [terminate_eq hsize hlength hstr]
    refine ⟨fun i hi hlast => ?_, Function.update_self _ _ _, fun a ha => ?_⟩
    · rw [Function.update_of_ne, hstored i hi (by omega)]
      intro heq
      have hsame := congrArg (offset buf) heq
      rw [offset_place (by omega), offset_place (by omega)] at hsame
      omega
    · rw [Function.update_of_ne, hkept a ha]
      rintro rfl
      rw [offset_place (by omega)] at ha
      omega

/-- What the console is given for a text: the text itself, or the front of a text that does
not fit, with the zero behind it. -/
def consoleText (text : List Char) : List Char :=
  if text.length < rtConsolebufSize - 1 then text
  else text.take (rtConsolebufSize - 2) ++ [nul]

theorem map_range_front {mem : ℕ → Char} {text : List Char} {n : ℕ} (hn : n ≤ text.length)
    (h : ∀ i, i < n → mem i = text.getD i nul) : (List.range n).map mem = text.take n := by
  refine List.ext_getElem ?_ fun i hi hi' => ?_
  · rw [List.length_map, List.length_range, List.length_take, min_eq_left hn]
  · rw [List.length_map, List.length_range] at hi
    rw [List.getElem_map, List.getElem_range, List.getElem_take, h i hi,
      List.getD_eq_getElem _ _ (hi.trans_le hn)]

/-- Where the console's buffer can lie, and the text without its pointer running past the
last address. -/
structure Placed (rtLogBuf : Address) (text : List Char) : Prop where
  buffer : rtLogBuf.toNat + rtConsolebufSize ≤ 2 ^ 32
  text : rtLogBuf.toNat + text.length < 2 ^ 32

theorem rtKprintf_text (mem : Address → Char) {rtLogBuf : Address} {fmt : List Char}
    {args : List Arg} {text : List Char} (htext : formatText fmt args = some text)
    (hplaced : Placed rtLogBuf text) :
    ∃ mem', rtKprintf mem rtLogBuf fmt args = some (mem', consoleText text) ∧
      ∀ a, rtConsolebufSize - 1 ≤ offset rtLogBuf a → mem' a = mem a := by
  obtain ⟨hbuffer, hlength⟩ := hplaced
  change rtLogBuf.toNat + 256 ≤ 2 ^ 32 at hbuffer
  have hroom : room rtLogBuf (BitVec.ofNat 32 (rtConsolebufSize - 1)) = 255 :=
    min_eq_left (by change 255 ≤ 2 ^ 32 - 1 - rtLogBuf.toNat; omega)
  obtain ⟨mem', hprint, hstored, hend, hkept⟩ :=
    @rtVsnprintf_spec mem rtLogBuf (BitVec.ofNat 32 (rtConsolebufSize - 1)) (by omega) fmt args
      text htext hlength
  rw [hroom] at hstored hend hkept
  refine ⟨mem', ?_, hkept⟩
  rw [rtKprintf, hprint, Option.bind_eq_bind, Option.bind_some]
  refine congrArg some (Prod.ext rfl ?_)
  dsimp only
  have hvalue : (BitVec.ofNat 32 text.length).toNat = text.length := by
    rw [BitVec.toNat_ofNat, Nat.mod_eq_of_lt (by omega)]
  have hsent : (if BitVec.ofNat 32 text.length > BitVec.ofNat 32 (rtConsolebufSize - 1) then
      BitVec.ofNat 32 (rtConsolebufSize - 1) else BitVec.ofNat 32 text.length).toNat =
      min text.length 255 := by
    have hlimit : (BitVec.ofNat 32 (rtConsolebufSize - 1)).toNat = 255 := rfl
    split_ifs with hlong <;> rw [gt_iff_lt, BitVec.lt_def, hlimit, hvalue] at hlong
    · rw [hlimit, min_eq_right hlong.le]
    · rw [hvalue, min_eq_left (Nat.le_of_not_lt hlong)]
  rw [hsent]
  unfold consoleText
  change _ = if text.length < 255 then text else text.take 254 ++ [nul]
  by_cases hfits : text.length < 255
  · rw [if_pos hfits, min_eq_left hfits.le,
      map_range_front le_rfl fun i hi => hstored i hi (by omega), List.take_length]
  · rw [min_eq_right (by omega)] at hend
    rw [if_neg hfits, min_eq_right (by omega), List.range_succ, List.map_append,
      List.map_singleton, hend, map_range_front (by omega) fun i hi => hstored i (by omega) hi]

/-! ### Lines of words and numbers -/

/-- `%d` of a word. -/
def signedDecimal (n : BitVec 32) : List Char :=
  (if n.toInt < 0 then ['-'] else []) ++ decimal n.toInt.natAbs

/-- A character of a format, or a directive with what it shows. -/
inductive Piece where
  | lit (c : Char)
  | d (n : BitVec 32)
  | s (text : List Char)

def Piece.spell : Piece → List Char
  | .lit c => [c]
  | .d _ => ['%', 'd']
  | .s _ => ['%', 's']

def Piece.args : Piece → List Arg
  | .lit _ => []
  | .d n => [.int n]
  | .s text => [.str (some text)]

def Piece.text : Piece → List Char
  | .lit c => [c]
  | .d n => signedDecimal n
  | .s text => text

/-- A percent sign starts a directive, the most negative word has no negation, and the
length of a string is an `int`. -/
def Piece.Plain : Piece → Prop
  | .lit c => c ≠ '%'
  | .d n => n.toInt ≠ -2147483648
  | .s text => text.length ≤ 2147483647

theorem printNumber_signed {n : BitVec 32} (hn : n.toInt ≠ -2147483648) :
    printNumber n 10 (-1) (-1) { Flags.none with sign := true } = some (signedDecimal n) := by
  have hdigits : digitsText Flags.none.large 10 (magnitude { Flags.none with sign := true } n) =
      decimal n.toInt.natAbs := List.map_id' _
  have hlength : (decimal n.toInt.natAbs).length ≤ 10 := by
    have hlower := BitVec.le_toInt n
    have hupper := BitVec.toInt_lt (x := n)
    exact Nat.toDigits_length 10 _ 10 (by decide) (by omega)
  have hoverflow : NoOverflow n 10 (-1) (-1) { Flags.none with sign := true } := by
    refine ⟨fun _ => hn, by decide, ?_⟩
    change -2147483644 ≤ -1 - max (-1) ((digitsText Flags.none.large 10 _).length : ℤ)
    rw [hdigits]
    omega
  have hwidth : (-1 : ℤ).toNat = 0 := rfl
  rw [printNumber_eq_layout (by decide) hoverflow, hwidth, Nat.zero_sub, List.replicate_zero,
    List.nil_append, layout_full (Nat.zero_le _)]
  change some (_ ++ digitsText Flags.none.large 10 _) = _
  rw [hdigits, signedDecimal]
  simp only [shownSign, Flags.none, if_true, Bool.false_eq_true, if_false]
  split_ifs <;> rfl

theorem directive_d (fmt : List Char) {n : BitVec 32} (hn : n.toInt ≠ -2147483648)
    (args : List Arg) :
    directive ('d' :: fmt) (.int n :: args) = some (signedDecimal n, fmt, args) := by
  have hdirective : directive ('d' :: fmt) (.int n :: args) =
      (printNumber n 10 (-1) (-1) { Flags.none with sign := true }).map
        fun text => (text, fmt, args) := rfl
  rw [hdirective, printNumber_signed hn, Option.map_some]

theorem directive_s (fmt : List Char) {text : List Char} (htext : text.length ≤ 2147483647)
    (args : List Arg) :
    directive ('s' :: fmt) (.str (some text) :: args) = some (text, fmt, args) := by
  have hlen : checked (text.length : ℤ) = some (text.length : ℤ) :=
    checked_of_le (by omega) (by omega)
  have hput : putString Flags.none (-1) (-1) (some text) = some text := by
    simp [putString, Flags.none, hlen]
  have hdirective : directive ('s' :: fmt) (.str (some text) :: args) =
      (putString Flags.none (-1) (-1) (some text)).map fun text => (text, fmt, args) := rfl
  rw [hdirective, hput, Option.map_some]

theorem formatText_directive {fmt : List Char} {args : List Arg} {text : List Char} {rest : Rest}
    (h : directive fmt args = some (text, rest)) :
    formatText ('%' :: fmt) args = (formatText rest.1 rest.2).map (text ++ ·) := by
  rw [formatText, if_pos rfl]
  split
  · next text' rest' h' =>
      obtain ⟨rfl, rfl⟩ := Prod.mk.inj (Option.some.inj (h.symm.trans h'))
      rfl
  · next h' => cases h.symm.trans h'

theorem formatText_piece {p : Piece} (hp : p.Plain) (fmt : List Char) (args : List Arg) :
    formatText (p.spell ++ fmt) (p.args ++ args) = (formatText fmt args).map (p.text ++ ·) := by
  cases p with
  | lit c =>
      have hc : c ≠ '%' := hp
      simp only [Piece.spell, Piece.args, Piece.text, List.singleton_append, List.nil_append]
      rw [formatText, if_neg hc]
  | d n => exact formatText_directive (directive_d fmt hp args)
  | s text => exact formatText_directive (directive_s fmt hp args)

theorem formatText_pieces {ps : List Piece} (hps : ∀ p ∈ ps, p.Plain) :
    formatText (ps.flatMap Piece.spell) (ps.flatMap Piece.args) = some (ps.flatMap Piece.text) := by
  induction ps with
  | nil => exact formatText.eq_1 []
  | cons p ps ih =>
      obtain ⟨hp, hps⟩ := List.forall_mem_cons.mp hps
      simp only [List.flatMap_cons]
      rw [formatText_piece hp, ih hps]
      rfl

/-! ### The lines of the program -/

theorem signedDecimal_byte (x : BitVec 8) : signedDecimal (x.setWidth 32) = decimal x.toNat := by
  have hx := x.isLt
  have hvalue : (x.setWidth 32).toNat = x.toNat :=
    (BitVec.toNat_setWidth 32 x).trans (Nat.mod_eq_of_lt (by omega))
  have hpos : ¬ (x.setWidth 32).toInt < 0 := by
    rw [BitVec.toInt_eq_toNat_of_lt (by omega)]
    exact Int.not_lt.mpr (Int.natCast_nonneg _)
  have habs : (x.setWidth 32).toInt.natAbs = x.toNat := by
    rw [BitVec.toInt_eq_toNat_of_lt (by omega), Int.natAbs_natCast, hvalue]
  rw [signedDecimal, if_neg hpos, habs, List.nil_append]

/-- The digits of two bytes and what stands around them fit the buffer. -/
theorem pointed_length (a b : BitVec 8) {words : List Char} (hwords : words.length ≤ 200) :
    (pointed a.toNat b.toNat ++ words).length < 255 := by
  have hdigits (x : BitVec 8) : (decimal x.toNat).length ≤ 3 :=
    Nat.toDigits_length 10 x.toNat 3 (by decide) (x.isLt.trans (by decide))
  have ha := hdigits a
  have hb := hdigits b
  rw [pointed, List.length_append, List.length_append, List.length_cons]
  omega

theorem words_pieces (words : List Char) :
    (words.map Piece.lit).flatMap Piece.spell = words ∧
      (words.map Piece.lit).flatMap Piece.args = [] ∧
      (words.map Piece.lit).flatMap Piece.text = words := by
  induction words with
  | nil => exact ⟨rfl, rfl, rfl⟩
  | cons c words ih =>
      obtain ⟨hspell, hargs, htext⟩ := ih
      simp only [List.map_cons, List.flatMap_cons, hspell, hargs, htext]
      exact ⟨rfl, rfl, rfl⟩

/-- `%d.%d` of two bytes, and words. -/
theorem formatText_pointed (a b : BitVec 8) {words : List Char} (hwords : '%' ∉ words) :
    formatText ("%d.%d".toList ++ words) [.int (a.setWidth 32), .int (b.setWidth 32)] =
      some (pointed a.toNat b.toNat ++ words) := by
  have hbyte (x : BitVec 8) : (Piece.d (x.setWidth 32)).Plain := by
    have hx := x.isLt
    have hvalue : (x.setWidth 32).toNat = x.toNat :=
      (BitVec.toNat_setWidth 32 x).trans (Nat.mod_eq_of_lt (by omega))
    change (x.setWidth 32).toInt ≠ _
    rw [BitVec.toInt_eq_toNat_of_lt (by omega)]
    omega
  have hplain : ∀ p ∈ [Piece.d (a.setWidth 32), .lit '.', .d (b.setWidth 32)] ++
      words.map Piece.lit, p.Plain := by
    rw [List.forall_mem_append]
    constructor
    · have hpoint : (Piece.lit '.').Plain := show '.' ≠ '%' by decide
      simp only [List.forall_mem_cons, List.not_mem_nil, false_implies, implies_true, and_true]
      exact ⟨hbyte a, hpoint, hbyte b⟩
    · intro p hp
      obtain ⟨c, hc, rfl⟩ := List.mem_map.mp hp
      exact fun hpercent => hwords (hpercent ▸ hc)
  have hformat := formatText_pieces hplain
  obtain ⟨hspell, hargs, htext⟩ := words_pieces words
  simp only [List.flatMap_append, hspell, hargs, htext, List.flatMap_cons, List.flatMap_nil,
    Piece.text, signedDecimal_byte, List.append_nil] at hformat
  exact hformat

/-- `dht11_read` reports its readings in full. -/
theorem report_printed (mem mem' : Address → Char) {rtLogBuf : Address}
    (hbuffer : rtLogBuf.toNat + rtConsolebufSize ≤ 2 ^ 32) (data : HumidityReading.Frame) :
    ∃ first second printed printed', HumidityReading.report data = [first, second] ∧
      rtKprintf mem rtLogBuf "%d.%dRH ,".toList
        [.int ((data 0).setWidth 32), .int ((data 1).setWidth 32)] = some (printed, first) ∧
      rtKprintf mem' rtLogBuf "%d.%dCH\r\n".toList
        [.int ((data 2).setWidth 32), .int ((data 3).setWidth 32)] = some (printed', second) := by
  have hline (mem : Address → Char) (a b : BitVec 8) (words : List Char) (hwords : '%' ∉ words)
      (hlength : words.length ≤ 200) :
      ∃ printed, rtKprintf mem rtLogBuf ("%d.%d".toList ++ words)
        [.int (a.setWidth 32), .int (b.setWidth 32)] =
          some (printed, pointed a.toNat b.toNat ++ words) := by
    have hshort := pointed_length a b hlength
    change rtLogBuf.toNat + 256 ≤ 2 ^ 32 at hbuffer
    obtain ⟨printed, hprint, -⟩ :=
      rtKprintf_text mem (formatText_pointed a b hwords) ⟨hbuffer, by omega⟩
    have hwhole : consoleText (pointed a.toNat b.toNat ++ words) =
        pointed a.toNat b.toNat ++ words := if_pos hshort
    rw [hwhole] at hprint
    exact ⟨printed, hprint⟩
  obtain ⟨printed, hfirst⟩ := hline mem (data 0) (data 1) "RH ,".toList (by decide) (by decide)
  obtain ⟨printed', hsecond⟩ :=
    hline mem' (data 2) (data 3) "CH\r\n".toList (by decide) (by decide)
  exact ⟨_, _, printed, printed', rfl, hfirst, hsecond⟩

/-- Any format whose directives find arguments of their kinds and overflow no `int` puts its
text on the console: all of it if it is shorter than 255, else the first 254 characters and a
zero, and writes nothing outside the buffer. The text of plain characters, `%d` and `%s` is
the characters, the numbers in decimal and the strings in their order. -/
theorem rtKprintf_console (mem : Address → Char) (rtLogBuf : Address) :
    (∀ {fmt args text}, formatText fmt args = some text → Placed rtLogBuf text →
      ∃ mem', rtKprintf mem rtLogBuf fmt args = some (mem', consoleText text) ∧
        ∀ a, rtConsolebufSize - 1 ≤ offset rtLogBuf a → mem' a = mem a) ∧
    ∀ {ps : List Piece}, (∀ p ∈ ps, p.Plain) →
      formatText (ps.flatMap Piece.spell) (ps.flatMap Piece.args) = some (ps.flatMap Piece.text) :=
  ⟨rtKprintf_text mem, formatText_pieces⟩

/-- A line of the pad thread. -/
theorem pad_line_printed :
    ∃ mem, rtKprintf (fun _ => nul) 0x20000000 "%d %d %d %d %d\n".toList
      [.int 128, .int 127, .int 0, .int 255, .int 13] =
        some (mem, "128 127 0 255 13\n".toList) := by
  have hplain : ∀ p ∈ [Piece.d 128, .lit ' ', .d 127, .lit ' ', .d 0, .lit ' ', .d 255, .lit ' ',
      .d 13, .lit '\n'], p.Plain := by
    simp [Piece.Plain]
  obtain ⟨hany, hpieces⟩ := rtKprintf_console (fun _ => nul) 0x20000000
  obtain ⟨mem, hmem, -⟩ := hany (hpieces hplain) ⟨by decide, by decide⟩
  exact ⟨mem, hmem⟩

end ExpertCar.KernelPrint
