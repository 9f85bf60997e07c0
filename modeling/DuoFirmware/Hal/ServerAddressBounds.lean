import DuoFirmware.Hal.ServerAddress

/-!
# Bounds of the parser of server addresses

`parseServerAddressData` is given a maximum length, which it compares with the length of a domain
name only. The port is taken from its offset in any case, and a name may be longer than its field.
-/

namespace DuoFirmware.Hal

open Bytes

variable {buf mem : List UInt8} {a b t l : UInt8}

/-- The parser takes the address for one of the two valid types: any IP address, and a domain name
that ends in the buffer. -/
inductive Accepts (buf : List UInt8) : Prop where
  | ip (ht : buf[0]? = some ipAddress)
  | domain (l : UInt8) (ht : buf[0]? = some domainName) (hl : buf[1]? = some l)
      (hle : l.toNat + 2 ≤ buf.length)

/-- A domain name fits its field. -/
def FitsDomain (bytes : List UInt8) : Prop :=
  bytes[0]? = some domainName → ∀ l ∈ bytes[1]?, l.toNat ≤ 64

/-- The parser reads nothing outside the buffer, writes nothing outside the address, and leaves a
name that fits its field. -/
def InBounds (buf : List UInt8) (old : ServerAddress) : Prop :=
  ∃ bytes, parseServerAddressData buf buf.length old.bytes = some ((), bytes) ∧ FitsDomain bytes

/-! ## What a parser that ends has written -/

theorem fetch_eq_some {i : ℕ} {r : UInt8 × List UInt8} (h : fetch buf i mem = some r) :
    buf[i]? = some r.1 ∧ r.2 = mem := by
  rcases hb : buf[i]? with _ | b
  · rw [fetch, hb] at h
    cases h
  · rw [fetch_eq hb] at h
    obtain rfl := Option.some.inj h
    exact ⟨rfl, rfl⟩

/-- Both of the first bytes are written. -/
theorem write_first (t a b : UInt8) (mem : List UInt8) :
    write 0 t (a :: b :: mem) = some ((), t :: b :: mem) := by
  rw [write_eq _ (Nat.succ_pos _), splice_singleton (Nat.succ_pos _)]
  rfl

theorem write_second (l a b : UInt8) (mem : List UInt8) :
    write 1 l (a :: b :: mem) = some ((), a :: l :: mem) := by
  have hlt : 1 < (a :: b :: mem).length := Nat.succ_lt_succ (Nat.succ_pos _)
  rw [write_eq _ hlt, splice_singleton hlt]
  rfl

theorem first_of_take (h : mem.take 2 = [t, l]) : mem[0]? = some t ∧ mem[1]? = some l := by
  rw [← List.getElem?_take_of_lt (show 0 < 2 by decide),
    ← List.getElem?_take_of_lt (show 1 < 2 by decide), h]
  exact ⟨rfl, rfl⟩

theorem parseValue_ip_eq_some (ht : buf[0]? = some ipAddress) {n : ℤ} {r : Unit × List UInt8}
    (h : parseValue buf n (a :: b :: mem) = some r) : r.2.take 2 = [ipAddress, 4] := by
  rw [parseValue, run_bind (fetch_eq ht _), if_pos rfl, run_bind (write_first _ _ _ _),
    run_bind (write_second _ _ _ _)] at h
  obtain ⟨_, _, h₂, h⟩ := run_bind_eq_some h
  obtain ⟨_, _, h₃, h⟩ := run_bind_eq_some h
  obtain ⟨_, _, h₄, h⟩ := run_bind_eq_some h
  obtain ⟨_, _, h₅, h⟩ := run_bind_eq_some h
  obtain ⟨-, rfl⟩ := fetch_eq_some h₂
  obtain ⟨-, rfl⟩ := fetch_eq_some h₃
  obtain ⟨-, rfl⟩ := fetch_eq_some h₄
  obtain ⟨-, rfl⟩ := fetch_eq_some h₅
  exact take_of_writeRange h le_rfl

theorem parseValue_domain_eq_some (ht : buf[0]? = some domainName) (hl : buf[1]? = some l)
    (hle : l.toNat + 2 ≤ buf.length) {r : Unit × List UInt8}
    (h : parseValue buf buf.length (a :: b :: mem) = some r) :
    r.2.take 2 = [domainName, l] := by
  have hname : (StateT.lift (readRange 2 l.toNat buf) : BufferM _) (domainName :: l :: mem) =
      some (((buf.drop 2).take l.toNat, buf), domainName :: l :: mem) := by
    rw [readRange_eq (by omega)]
    rfl
  rw [parseValue, run_bind (fetch_eq ht _), if_neg (by decide), if_pos rfl,
    run_bind (fetch_eq hl _), if_pos (by omega), run_bind (write_first _ _ _ _),
    run_bind (write_second _ _ _ _), run_bind hname] at h
  obtain ⟨_, mem₁, hcopy, h⟩ := run_bind_eq_some h
  rw [take_of_writeRange h (by omega)]
  exact take_of_writeRange hcopy le_rfl

/-- The port is read for an address of a valid type. -/
theorem length_of_parse (ht : t ≠ invalidInternetAddress) {n : ℤ} {r : Unit × List UInt8}
    (hvalue : ∀ r', parseValue buf n mem = some r' → r'.2.take 2 = [t, l])
    (h : parseServerAddressData buf n mem = some r) :
    68 ≤ buf.length ∧ r.2.take 2 = [t, l] := by
  rw [parseServerAddressData] at h
  obtain ⟨_, mem₁, hrun, h⟩ := run_bind_eq_some h
  have hfirst := hvalue _ hrun
  rw [run_bind (read_eq_some (first_of_take hfirst).1), if_pos ht] at h
  obtain ⟨x, mem₂, hx, hrest⟩ := run_bind_eq_some h
  obtain ⟨y, mem₃, hy, hport⟩ := run_bind_eq_some hrest
  obtain ⟨-, hmem₂⟩ := fetch_eq_some hx
  obtain ⟨hlast, hmem₃⟩ := fetch_eq_some hy
  obtain ⟨hlt, -⟩ := List.getElem?_eq_some_iff.mp hlast
  have hmem : mem₃ = mem₁ := hmem₃.trans hmem₂
  rw [take_of_writeRange hport (by decide), hmem]
  exact ⟨hlt, hfirst⟩

/-! ## When the parser ends -/

theorem exists_byte {i : ℕ} (h : i < buf.length) : ∃ b, buf[i]? = some b :=
  ⟨_, List.getElem?_eq_getElem h⟩

/-- An address of an accepted type is parsed, if the port lies in the buffer and a name fits. -/
theorem inBounds_of_accepts (old : ServerAddress) (h : Accepts buf) (hport : 68 ≤ buf.length)
    (hfits : FitsDomain buf) : InBounds buf old := by
  obtain ⟨t, l, e, p, q, pad, hold⟩ := exists_layout old
  obtain ⟨x, hx⟩ := exists_byte (show 66 < buf.length by omega)
  obtain ⟨y, hy⟩ := exists_byte (show 67 < buf.length by omega)
  cases h with
  | ip ht =>
    obtain ⟨u, hu⟩ := exists_byte (show 2 < buf.length by omega)
    obtain ⟨v, hv⟩ := exists_byte (show 3 < buf.length by omega)
    obtain ⟨w, hw⟩ := exists_byte (show 4 < buf.length by omega)
    obtain ⟨z, hz⟩ := exists_byte (show 5 < buf.length by omega)
    match e, hold.length_domain with
    | a :: b :: c :: d :: e, he =>
      have he' : (z :: w :: v :: u :: e).length = 64 := by simpa using he
      refine ⟨_, parsePort he' (by decide) (parseValue_ip buf hold ht hu hv hw hz _) hx hy,
        fun hc ↦ ?_⟩
      cases hc
  | domain k ht hk hle =>
    have hk64 : k.toNat ≤ 64 := hfits ht k hk
    obtain ⟨f, u, v, pad', hvalue, hlength, -⟩ :=
      parseValue_domain buf hold ht hk hk64 (by omega)
    refine ⟨_, parsePort hlength (by decide) hvalue hx hy, fun _ j hj ↦ ?_⟩
    obtain rfl := Option.some.inj hj
    exact hk64

/-- Anything else becomes an invalid address. -/
theorem inBounds_of_not_accepts (old : ServerAddress) (hbuf : 2 ≤ buf.length) (h : ¬ Accepts buf) :
    InBounds buf old := by
  obtain ⟨t, l, e, p, q, pad, hold⟩ := exists_layout old
  obtain ⟨x, hx⟩ := exists_byte (show 0 < buf.length by omega)
  obtain ⟨y, hy⟩ := exists_byte (show 1 < buf.length by omega)
  have hip : x ≠ ipAddress := fun hc ↦ h (.ip (hc ▸ hx))
  obtain ⟨rest, hrest⟩ : ∃ rest, old.bytes = t :: l :: rest := ⟨_, hold.bytes⟩
  have hwrite : write 0 invalidInternetAddress (t :: l :: rest) =
      some ((), invalidInternetAddress :: l :: rest) := write_first _ _ _ _
  have hvalue : parseValue buf buf.length old.bytes =
      some ((), invalidInternetAddress :: l :: rest) := by
    rw [parseValue, run_bind (fetch_eq hx _), if_neg hip, hrest]
    by_cases hdomain : x = domainName
    · subst hdomain
      have hlong : ¬ (y.toNat : ℤ) ≤ buf.length - 2 := fun hc ↦ h (.domain y hx hy (by omega))
      rw [if_pos rfl, run_bind (fetch_eq hy _), if_neg hlong, hwrite]
    · rw [if_neg hdomain, hwrite]
  refine ⟨invalidInternetAddress :: l :: rest, ?_, fun hc ↦ by cases hc⟩
  rw [parseServerAddressData, run_bind hvalue]
  rfl

/-- A parser that stays in bounds has the port in its buffer, and a name that fits. -/
theorem length_of_inBounds {old : ServerAddress} (h : InBounds buf old) (haccepts : Accepts buf) :
    68 ≤ buf.length ∧ FitsDomain buf := by
  obtain ⟨bytes, hrun, hfits⟩ := h
  obtain ⟨t, l, e, p, q, pad, hold⟩ := exists_layout old
  obtain ⟨rest, hrest⟩ : ∃ rest, old.bytes = t :: l :: rest := ⟨_, hold.bytes⟩
  rw [hrest] at hrun
  cases haccepts with
  | ip ht =>
    obtain ⟨hlength, -⟩ := length_of_parse (by decide)
      (fun _ hr ↦ parseValue_ip_eq_some ht hr) hrun
    refine ⟨hlength, fun hdomain ↦ ?_⟩
    rw [ht] at hdomain
    cases hdomain
  | domain k ht hk hle =>
    obtain ⟨hlength, htake⟩ := length_of_parse (by decide)
      (fun _ hr ↦ parseValue_domain_eq_some ht hk hle hr) hrun
    obtain ⟨hfirst, hsecond⟩ := first_of_take htake
    refine ⟨hlength, fun _ j hj ↦ ?_⟩
    obtain rfl := Option.some.inj (hk.symm.trans hj)
    exact hfits hfirst k hsecond

/-- **The parser stays in bounds** if and only if an address that it accepts reaches to the end of
the port, and a name that it accepts fits its field. -/
theorem inBounds_iff (buf : List UInt8) (old : ServerAddress) (hbuf : 2 ≤ buf.length) :
    InBounds buf old ↔ (Accepts buf → 68 ≤ buf.length ∧ FitsDomain buf) := by
  refine ⟨fun h haccepts ↦ length_of_inBounds h haccepts, fun h ↦ ?_⟩
  by_cases haccepts : Accepts buf
  · obtain ⟨hport, hfits⟩ := h haccepts
    exact inBounds_of_accepts old haccepts hport hfits
  · exact inBounds_of_not_accepts old hbuf haccepts

/-- An address that is stored in 128 bytes. -/
theorem inBounds_iff_longName : InBounds longName.bytes (.zero 128) ↔
    (Accepts longName.bytes → 68 ≤ longName.bytes.length ∧ FitsDomain longName.bytes) :=
  inBounds_iff longName.bytes (.zero 128) (by rw [longName.length_eq]; decide)

/-- An IP address in six bytes: the port is read behind their end. -/
theorem not_inBounds_short :
    2 ≤ [ipAddress, 4, 192, 168, 0, 1].length ∧
      ¬ InBounds [ipAddress, 4, 192, 168, 0, 1] (.zero 128) := by
  refine ⟨by decide, fun h ↦ ?_⟩
  obtain ⟨hlength, -⟩ := length_of_inBounds h (.ip rfl)
  exact absurd hlength (by decide)

end DuoFirmware.Hal
