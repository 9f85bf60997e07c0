import DuoFirmware.Json.Written

/-!
# What values are taken for

The conversions of `JsonVariant`. A value that was written and read again is a text, and is taken
for the same integer and the same constant as before.
-/

namespace DuoFirmware.Json

open JsonVariant

variable {s : List UInt8} {c : UInt8}

/-! ## Conversions -/

def isspace (c : UInt8) : Bool := c = space ∨ 0x09 ≤ c ∧ c ≤ 0x0d

def isdigit (c : UInt8) : Bool := 0x30 ≤ c ∧ c ≤ 0x39

/-- The number that digits stand for. -/
def decimal (digits : List UInt8) : ℕ := digits.foldl (fun n c ↦ 10 * n + (c.toNat - 0x30)) 0

/-- What `strtol` gives: the value, the text from the end pointer on, and whether `errno` tells that
the value is out of range. -/
structure Strtol where
  value : Int32
  rest : List UInt8
  range : Bool

/-- `strtol` behind the sign. What is out of range becomes the nearest value. -/
def strtolDigits (s : List UInt8) (negative : Bool) (text : List UInt8) : Strtol :=
  let digits := text.takeWhile isdigit
  let rest := text.dropWhile isdigit
  let value : ℤ := if negative then -decimal digits else decimal digits
  if digits = [] then ⟨0, s, false⟩
  else if value < -2 ^ 31 then ⟨Int32.minValue, rest, true⟩
  else if 2 ^ 31 ≤ value then ⟨Int32.maxValue, rest, true⟩
  else ⟨.ofInt value, rest, false⟩

/-- `strtol` with base 10: spaces, a sign and digits. -/
def strtol (s : List UInt8) : Strtol :=
  let text := s.dropWhile isspace
  if text.head? = some minus then strtolDigits s true text.tail
  else if text.head? = some 0x2b then strtolDigits s false text.tail
  else strtolDigits s false text

namespace JsonVariant

variable {S : Type} (chars : S → List UInt8)

def asInteger : JsonVariant S → Int32
  | integer value => value
  | boolean value => if value then 1 else 0
  | string (some s) => if chars s = trueText then 1 else (strtol (chars s)).value
  | unparsed s => if chars s = trueText then 1 else (strtol (chars s)).value
  | _ => 0

def asString : JsonVariant S → Option S
  | unparsed s => if chars s = nullText then none else some s
  | string s => s
  | _ => none

/-- `is<bool>`. -/
def isBool : JsonVariant S → Bool
  | boolean _ => true
  | unparsed s => chars s = trueText ∨ chars s = falseText
  | _ => false

/-- `is<long>`. -/
def isLong : JsonVariant S → Bool
  | integer _ => true
  | unparsed s => (strtol (chars s)).rest = [] ∧ (strtol (chars s)).range = false
  | _ => false

/-- Neither `is<JsonArray &>` nor `is<JsonObject &>`. -/
def isScalar : JsonVariant S → Bool
  | array _ => false
  | object _ => false
  | _ => true

end JsonVariant

/-! ## Integers are read as they were printed -/

theorem decimal_append (digits : List UInt8) (c : UInt8) :
    decimal (digits ++ [c]) = 10 * decimal digits + (c.toNat - 0x30) := by
  rw [decimal, List.foldl_append]
  rfl

theorem natAbs_div (value : Int32) : (value / 10).toInt.natAbs = value.toInt.natAbs / 10 := by
  rw [Int32.toInt_div_of_ne_right value 10 (by decide), Int.natAbs_tdiv]
  rfl

/-- The digits of a number stand for its absolute value. -/
theorem decimal_digitsLoop {n : ℕ} {value : Int32} (h : value.toInt.natAbs < 10 ^ n) :
    decimal (digitsLoop n value).reverse = value.toInt.natAbs := by
  induction n generalizing value with
  | zero => exact (Nat.lt_one_iff.mp h).symm
  | succ n ih =>
    have hmod : value.toInt.natAbs % 10 < 10 := Nat.mod_lt _ (by decide)
    have hchar : (UInt8.ofNat (0x30 + value.toInt.natAbs % 10)).toNat - 0x30 =
        value.toInt.natAbs % 10 := by
      rw [UInt8.toNat_ofNat', Nat.mod_eq_of_lt (by omega), Nat.add_sub_cancel_left]
    have hdiv := natAbs_div value
    rw [digitsLoop, digit_char, List.reverse_cons, decimal_append, hchar]
    split_ifs with hlast
    · have hzero : (0 : Int32).toInt.natAbs = 0 := rfl
      rw [hlast, hzero] at hdiv
      rw [List.reverse_nil, decimal, List.foldl_nil]
      omega
    · rw [ih (by rw [hdiv]; rw [pow_succ] at h; omega), hdiv]
      omega

theorem strtolDigits_eq {digits : List UInt8} {negative : Bool} {value : ℤ} (hne : digits ≠ [])
    (hdigits : ∀ c ∈ digits, isdigit c = true)
    (hvalue : value = if negative then -(decimal digits : ℤ) else decimal digits)
    (hle : -2 ^ 31 ≤ value) (hlt : value < 2 ^ 31) :
    strtolDigits s negative digits = ⟨.ofInt value, [], false⟩ := by
  have htake : digits.takeWhile isdigit = digits := List.takeWhile_eq_self_iff.mpr hdigits
  have hdrop : digits.dropWhile isdigit = [] := List.dropWhile_eq_nil_iff.mpr hdigits
  rw [strtolDigits, htake, hdrop, ← hvalue, if_neg hne, if_neg hle.not_gt, if_neg hlt.not_ge]

/-- No digit is a space or a sign. -/
theorem isdigit_first (hc : isdigit c = true) :
    isspace c = false ∧ c ≠ minus ∧ c ≠ 0x2b := by
  have hle : 0x30 ≤ c := (of_decide_eq_true hc).1
  refine ⟨decide_eq_false ?_, ?_, ?_⟩
  · rintro (rfl | ⟨-, hle'⟩)
    · exact absurd hle (by decide)
    · exact absurd (UInt8.le_trans hle hle') (by decide)
  · rintro rfl
    exact absurd hle (by decide)
  · rintro rfl
    exact absurd hle (by decide)

theorem strtol_of_digits {digits : List UInt8} (hne : digits ≠ [])
    (hdigits : ∀ c ∈ digits, isdigit c = true) :
    strtol digits = strtolDigits digits false digits := by
  obtain ⟨c, rest, rfl⟩ := List.exists_cons_of_ne_nil hne
  obtain ⟨hspace, hminus, hplus⟩ := isdigit_first (hdigits c List.mem_cons_self)
  have hhead {d : UInt8} (hd : c ≠ d) : (c :: rest).head? ≠ some d :=
    fun h ↦ hd (Option.some.inj h)
  rw [strtol, List.dropWhile_cons_of_neg (by rw [hspace]; decide), if_neg (hhead hminus),
    if_neg (hhead hplus)]

theorem digits_ne_nil (value : Int32) : (digitsLoop 22 value).reverse ≠ [] :=
  fun h ↦ List.cons_ne_nil _ _ (List.reverse_eq_nil_iff.mp h)

theorem isdigit_char {d : ℕ} (hd : d < 10) : isdigit (.ofNat (0x30 + d)) = true := by
  revert d
  decide

theorem digits_isdigit (value : Int32) :
    ∀ c ∈ (digitsLoop 22 value).reverse, isdigit c = true := by
  intro c hc
  obtain ⟨d, hd, rfl⟩ := digitsLoop_chars 22 value c (List.mem_reverse.mp hc)
  exact isdigit_char hd

/-- **Every integer is read as it was printed**, the least one too, whose sign cannot be changed. -/
theorem strtol_printInteger (value : Int32) : strtol (printInteger value) = ⟨value, [], false⟩ := by
  have hle := value.le_toInt
  have hlt := value.toInt_lt
  have hzero : (0 : Int32).toInt = 0 := rfl
  have hdecimal (x : Int32) : decimal (digitsLoop 22 x).reverse = x.toInt.natAbs := by
    have hxle := x.le_toInt
    have hxlt := x.toInt_lt
    exact decimal_digitsLoop (by omega)
  rw [printInteger]
  split_ifs with hsign
  · have hneg : value.toInt < 0 := hzero ▸ Int32.lt_iff_toInt_lt.mp hsign
    have habs : (-value).toInt.natAbs = value.toInt.natAbs := by
      rw [Int32.toInt_neg]
      rcases eq_or_ne value.toInt (-2 ^ 31) with hmin | hmin
      · rw [hmin]
        rfl
      · rw [Int.bmod_eq_of_le (by omega) (by omega), Int.natAbs_neg]
    have hvalue : value.toInt = if true then -(decimal (digitsLoop 22 (-value)).reverse : ℤ)
        else decimal (digitsLoop 22 (-value)).reverse := by
      rw [hdecimal, habs, if_pos rfl]
      omega
    have hminus : strtol (minus :: (digitsLoop 22 (-value)).reverse) =
        strtolDigits (minus :: (digitsLoop 22 (-value)).reverse) true
          (digitsLoop 22 (-value)).reverse := rfl
    rw [hminus, strtolDigits_eq (digits_ne_nil _) (digits_isdigit _) hvalue hle hlt,
      Int32.ofInt_toInt]
  · have hpos : 0 ≤ value.toInt := by
      have := mt Int32.lt_iff_toInt_lt.mpr hsign
      omega
    have hvalue : value.toInt = if false then -(decimal (digitsLoop 22 value).reverse : ℤ)
        else decimal (digitsLoop 22 value).reverse := by
      rw [hdecimal, if_neg Bool.false_ne_true]
      omega
    rw [strtol_of_digits (digits_ne_nil _) (digits_isdigit _),
      strtolDigits_eq (digits_ne_nil _) (digits_isdigit _) hvalue hle hlt, Int32.ofInt_toInt]

theorem printInteger_ne (value : Int32) (h : (strtol s).rest ≠ []) : printInteger value ≠ s := by
  rintro rfl
  exact h (by rw [strtol_printInteger])

/-! ## Values that were read -/

namespace JsonVariant

theorem asInteger_asRead (v : Value) : v.asRead.asInteger id = v.asInteger id := by
  cases v with
  | integer value =>
    have hne : printInteger value ≠ trueText := printInteger_ne value (List.cons_ne_nil _ _)
    simp only [asRead, asInteger, if_neg hne, id, strtol_printInteger]
  | boolean value => cases value <;> rfl
  | string s => cases s <;> rfl
  | _ => rfl

theorem isBool_asRead (v : Value) : v.asRead.isBool id = v.isBool id := by
  cases v with
  | integer value =>
    exact decide_eq_false (not_or.mpr ⟨printInteger_ne value (List.cons_ne_nil _ _),
      printInteger_ne value (List.cons_ne_nil _ _)⟩)
  | boolean value => cases value <;> rfl
  | string s => cases s <;> rfl
  | _ => rfl

/-- The text of a value that was not defined is empty, and taken for an integer. -/
theorem isLong_asRead {v : Value} (hv : v ≠ undefined) : v.asRead.isLong id = v.isLong id := by
  cases v with
  | undefined => exact absurd rfl hv
  | integer value =>
    simp only [asRead, isLong, id, strtol_printInteger]
    rfl
  | boolean value => cases value <;> rfl
  | string s => cases s <;> rfl
  | _ => rfl

theorem isScalar_asRead (v : Value) : v.asRead.isScalar = v.isScalar := by
  cases v with
  | string s => cases s <;> rfl
  | _ => rfl

theorem asString_asRead (s : Option (List UInt8)) :
    (JsonVariant.string s).asRead.asString id = s := by
  cases s <;> rfl

variable {T : Type} (f : T → List UInt8) (v : JsonVariant T)

theorem asInteger_map : (v.map f).asInteger id = v.asInteger f := by
  cases v with
  | string s => cases s <;> rfl
  | _ => rfl

theorem isBool_map : (v.map f).isBool id = v.isBool f := by
  cases v <;> rfl

theorem isLong_map : (v.map f).isLong id = v.isLong f := by
  cases v <;> rfl

theorem isScalar_map : (v.map f).isScalar = v.isScalar := by
  cases v <;> rfl

theorem asString_map : (v.map f).asString id = (v.asString f).map f := by
  cases v with
  | unparsed s =>
    rw [map, asString, asString, id]
    split_ifs <;> rfl
  | _ => rfl

end JsonVariant

/-- A value that is taken for the same as another one, with all that is in it. -/
inductive Alike {T : Type} (f : T → List UInt8) : JsonVariant T → Value → Prop
  | scalar {v : JsonVariant T} {w : Value} (hv : v.isScalar = true) (hw : w.isScalar = true)
      (integer : v.asInteger f = w.asInteger id) (bool : v.isBool f = w.isBool id)
      (long : w ≠ .undefined → v.isLong f = w.isLong id)
      (string : ∀ s, w = .string s → (v.asString f).map f = s) : Alike f v w
  | array {ns : List (JsonVariant T)} {nodes : List Value} (h : List.Forall₂ (Alike f) ns nodes) :
      Alike f (.array ns) (.array nodes)
  | object {ns : List (T × JsonVariant T)} {nodes : List (List UInt8 × Value)}
      (hkeys : ns.map (fun m ↦ f m.1) = nodes.map Prod.fst)
      (h : List.Forall₂ (Alike f) (ns.map Prod.snd) (nodes.map Prod.snd)) :
      Alike f (.object ns) (.object nodes)

section

variable {T : Type} {f : T → List UInt8} {v : JsonVariant T} {w : Value}

theorem Alike.of_scalar (hw : w.isScalar = true) (h : v.map f = w.asRead) : Alike f v w := by
  have hv : v.isScalar = true := by
    rw [← isScalar_map f, h, isScalar_asRead, hw]
  refine .scalar hv hw ?_ ?_ ?_ ?_
  · rw [← asInteger_map, h, asInteger_asRead]
  · rw [← isBool_map, h, isBool_asRead]
  · intro hne
    rw [← isLong_map, h, isLong_asRead hne]
  · rintro s rfl
    rw [← asString_map, h, asString_asRead]

theorem forall₂_of_map_eq {α β γ : Type} {R : α → β → Prop} {g : α → γ} {g' : β → γ}
    {l : List α} {l' : List β} (h : l.map g = l'.map g')
    (hR : ∀ b ∈ l', ∀ a, g a = g' b → R a b) : List.Forall₂ R l l' := by
  induction l' generalizing l with
  | nil =>
    rw [List.map_eq_nil_iff.mp h]
    exact .nil
  | cons b l' ih =>
    rw [List.forall_mem_cons] at hR
    cases l with
    | nil => cases h
    | cons a l =>
      obtain ⟨hhead, htail⟩ := List.cons.inj h
      exact .cons (hR.1 a hhead) (ih htail hR.2)

/-- What is read for a value is taken for the same. -/
theorem alike_of_map (h : v.map f = w.asRead) : Alike f v w := by
  induction w using ofNodes generalizing v with
  | harray nodes ih =>
    cases v with
    | array ns =>
      rw [map, asRead, mapNodes_eq, asReadNodes_eq] at h
      exact .array (forall₂_of_map_eq (JsonVariant.array.inj h) fun w hw v ↦ ih w hw)
    | _ => cases h
  | hobject nodes ih =>
    cases v with
    | object ns =>
      rw [map, asRead, mapPairs_eq, asReadPairs_eq] at h
      have hpairs := JsonVariant.object.inj h
      have hkeys := congrArg (List.map Prod.fst) hpairs
      have hvalues := congrArg (List.map Prod.snd) hpairs
      rw [List.map_map, List.map_map] at hkeys hvalues
      have hmap : (ns.map Prod.snd).map (map f) = (nodes.map Prod.snd).map asRead := by
        rw [List.map_map, List.map_map]
        exact hvalues
      refine .object hkeys (forall₂_of_map_eq hmap fun w hw v ↦ ?_)
      obtain ⟨n, hn, rfl⟩ := List.mem_map.mp hw
      exact ih n hn
    | _ => cases h
  | _ => exact .of_scalar rfl h

end

/-! ## Written and read -/

variable {sizes : Sizes} {capacity limit : ℕ} {nodes : List Value}
  {pairs : List (List UInt8 × Value)}

theorem readBack_room {v : Value} (hlimit : v.nesting ≤ limit + 1)
    (hroom : v.memory sizes ≤ capacity) : readBack sizes capacity limit v = some v.asRead :=
  if_pos ⟨hlimit, hroom⟩

end DuoFirmware.Json
