import DuoFirmware.Hal.Numbers
import DuoFirmware.Lib.Bytes

/-!
# Server addresses

The address of the server lies in flash with a type, a length and a value, and with its numbers in
network order. `encodeServerAddressData` copies the packed structure and swaps the bytes of its
numbers; `parseServerAddressData` takes the bytes from their offsets, and terminates a domain name
where the port begins if the name fills its field.
-/

namespace DuoFirmware.Hal

open Bytes

def ipAddress : UInt8 := 0

def domainName : UInt8 := 1

def invalidInternetAddress : UInt8 := 0xff

/-- `SYSTEM_ERROR_TOO_LARGE`. -/
def systemErrorTooLarge : ℤ := -190

/-! ## Numbers in a buffer -/

/-- Access to a number in a buffer. -/
def load16 (p : ℕ) : BufferM UInt16 := do
  let a ← read p
  let b ← read (p + 1)
  pure (word16 b a)

def load32 (p : ℕ) : BufferM UInt32 := do
  let a ← read p
  let b ← read (p + 1)
  let c ← read (p + 2)
  let d ← read (p + 3)
  pure (word32 d c b a)

/-! ## Addresses -/

/-- The 128 bytes of a `ServerAddress`. -/
abbrev ServerAddress := Field 128

namespace ServerAddress

variable (addr : ServerAddress)

def byte (i : ℕ) : UInt8 := addr.bytes.getD i 0

def addrType : UInt8 := addr.byte 0

def length : UInt8 := addr.byte 1

/-- `domain`, which shares its memory with `ip`. -/
def domain : List UInt8 := (addr.bytes.drop 2).take 64

def ip : UInt32 := word32 (addr.byte 5) (addr.byte 4) (addr.byte 3) (addr.byte 2)

def port : UInt16 := word16 (addr.byte 67) (addr.byte 66)

end ServerAddress

/-- The size of a `ServerAddress` without its padding. -/
def serverAddressSize : ℕ := 128 - 60

/-- The numbers of an address in a buffer are put in network order. -/
def swapIp : BufferM Unit := do
  let ip ← load32 2
  writeRange 2 (bytes32 (bswap32 ip))

def swapPort : BufferM Unit := do
  let port ← load16 66
  writeRange 66 (bytes16 (bswap16 port))

/-- `encodeServerAddressData`, over the buffer. -/
def encodeServerAddressData (addr : ServerAddress) (bufSize : ℕ) : BufferM ℤ := do
  if bufSize < serverAddressSize then
    pure systemErrorTooLarge
  else if addr.addrType = ipAddress ∨ addr.addrType = domainName then
    if addr.length.toNat > serverAddressSize - 4 then
      pure systemErrorTooLarge
    else
      writeRange 0 (addr.bytes.take serverAddressSize)
      if addr.addrType = ipAddress then swapIp else pure ()
      swapPort
      pure 0
  else
    write 0 invalidInternetAddress
    pure 0

/-- A byte of the buffer that is parsed. -/
def fetch (buf : List UInt8) (i : ℕ) : BufferM UInt8 := StateT.lift buf[i]?

/-- The part of `parseServerAddressData` that depends on the type. -/
def parseValue (buf : List UInt8) (maxLength : ℤ) : BufferM Unit := do
  let addrType ← fetch buf 0
  if addrType = ipAddress then
    write 0 ipAddress
    write 1 4
    let a ← fetch buf 2
    let b ← fetch buf 3
    let c ← fetch buf 4
    let d ← fetch buf 5
    writeRange 2 (bytes32 (word32 a b c d))
  else if addrType = domainName then
    let length ← fetch buf 1
    if (length.toNat : ℤ) ≤ maxLength - 2 then
      write 0 domainName
      write 1 length
      let (name, _) ← StateT.lift (readRange 2 length.toNat buf)
      writeRange 2 name
      -- a name that fills its field is terminated behind it
      write (2 + length.toNat) 0
    else
      write 0 invalidInternetAddress
  else
    write 0 invalidInternetAddress

/-- `parseServerAddressData`, over the bytes of the address that is filled in. -/
def parseServerAddressData (buf : List UInt8) (maxLength : ℤ) : BufferM Unit := do
  parseValue buf maxLength
  let addrType ← read 0
  if addrType ≠ invalidInternetAddress then do
    let a ← fetch buf 66
    let b ← fetch buf 67
    writeRange 66 (bytes16 (word16 a b))
  else pure ()

variable {r x : List UInt8} {a b c d : UInt8}

theorem load16_append (hx : x.length = 66) :
    load16 66 (x ++ [a, b] ++ r) = some (word16 b a, x ++ [a, b] ++ r) := by
  have ha : (x ++ [a, b] ++ r)[66]? = some a := by simp [← hx]
  have hb : (x ++ [a, b] ++ r)[66 + 1]? = some b := by simp [← hx]
  rw [load16, run_bind (read_eq_some ha), run_bind (read_eq_some hb), run_pure]

theorem load32_append (t l : UInt8) :
    load32 2 ([t, l] ++ [a, b, c, d] ++ r) = some (word32 d c b a, [t, l] ++ [a, b, c, d] ++ r) :=
  rfl

/-! ## Addresses as bytes -/

/-- The fields of an address, one after the other. -/
structure Layout (addr : ServerAddress) (t l : UInt8) (d : List UInt8) (p q : UInt8)
    (pad : List UInt8) : Prop where
  bytes : addr.bytes = [t, l] ++ d ++ [p, q] ++ pad
  length_domain : d.length = 64
  length_padding : pad.length = 60

theorem exists_layout (addr : ServerAddress) : ∃ t l d p q pad, Layout addr t l d p q pad := by
  obtain ⟨bytes, hbytes⟩ := addr
  match bytes, hbytes with
  | t :: l :: rest, h =>
    have hlength : rest.length = 126 := by simpa using h
    have hdrop : (rest.drop 64).length = 62 := by rw [List.length_drop, hlength]
    match hrest : rest.drop 64, hdrop with
    | p :: q :: pad, h' =>
      refine ⟨t, l, rest.take 64, p, q, pad, ?_, ?_, by simpa using h'⟩
      · have hsplit := List.take_append_drop 64 rest
        rw [hrest] at hsplit
        simp only [List.cons_append, List.nil_append, List.append_assoc]
        rw [hsplit]
      · rw [List.length_take, hlength]
        rfl

namespace Layout

variable {addr : ServerAddress} {t l p q : UInt8} {pad : List UInt8}

theorem addrType_eq {e : List UInt8} (h : Layout addr t l e p q pad) : addr.addrType = t := by
  rw [ServerAddress.addrType, ServerAddress.byte, h.bytes]
  rfl

theorem length_eq {e : List UInt8} (h : Layout addr t l e p q pad) : addr.length = l := by
  rw [ServerAddress.length, ServerAddress.byte, h.bytes]
  rfl

theorem domain_eq {e : List UInt8} (h : Layout addr t l e p q pad) : addr.domain = e := by
  have hdrop : ([t, l] ++ e ++ [p, q] ++ pad).drop 2 = e ++ ([p, q] ++ pad) := by simp
  rw [ServerAddress.domain, h.bytes, hdrop, ← h.length_domain, List.take_left]

theorem port_eq {e : List UInt8} (h : Layout addr t l e p q pad) : addr.port = word16 q p := by
  have hp : ([t, l] ++ e ++ [p, q] ++ pad)[66]? = some p := by simp [← h.length_domain]
  have hq : ([t, l] ++ e ++ [p, q] ++ pad)[67]? = some q := by
    have hlength : ([t, l] ++ e ++ [p]).length = 67 := by simp [h.length_domain]
    have hassoc : [t, l] ++ e ++ [p, q] ++ pad = [t, l] ++ e ++ [p] ++ q :: pad := by simp
    rw [hassoc, List.getElem?_append_right hlength.le, hlength]
    rfl
  rw [ServerAddress.port, ServerAddress.byte, ServerAddress.byte, h.bytes,
    List.getD_eq_getElem?_getD, List.getD_eq_getElem?_getD, hp, hq]
  rfl

theorem ip_eq {e : List UInt8} (h : Layout addr t l (a :: b :: c :: d :: e) p q pad) :
    addr.ip = word32 d c b a := by
  simp only [ServerAddress.ip, ServerAddress.byte, h.bytes]
  rfl

end Layout

/-! ## Encoding -/

variable {e pad buf : List UInt8} {t l p q : UInt8} {addr : ServerAddress}

theorem swapPort_append (hx : x.length = 66) :
    swapPort (x ++ [a, b] ++ r) = some ((), x ++ [b, a] ++ r) := by
  have hfits : 66 + (bytes16 (bswap16 (word16 b a))).length ≤ (x ++ [a, b] ++ r).length := by
    simp only [bytes16, List.length_append, hx, List.length_cons, List.length_nil]
    omega
  rw [swapPort, run_bind (load16_append hx), writeRange_eq hfits, bytes16_bswap16, bytes16_word16,
    ← hx, splice_append _ _ _ (by simp)]
  rfl

theorem swapIp_append (t l : UInt8) :
    swapIp ([t, l] ++ [a, b, c, d] ++ r) = some ((), [t, l] ++ [d, c, b, a] ++ r) := by
  have hfits : 2 + (bytes32 (bswap32 (word32 d c b a))).length ≤
      ([t, l] ++ [a, b, c, d] ++ r).length := by
    simp [bytes32]
  rw [swapIp, run_bind (load32_append t l), writeRange_eq hfits, bytes32_bswap32, bytes32_word32]
  exact congrArg (fun s ↦ some ((), s)) (splice_append [t, l] [a, b, c, d] r rfl)

/-- The copy of an address in a buffer. -/
theorem copy_eq (h : Layout addr t l e p q pad) (hbuf : serverAddressSize ≤ buf.length) :
    writeRange 0 (addr.bytes.take serverAddressSize) buf =
      some ((), [t, l] ++ e ++ [p, q] ++ buf.drop serverAddressSize) := by
  have hlength : ([t, l] ++ e ++ [p, q]).length = serverAddressSize := by
    simp [h.length_domain, serverAddressSize]
  have htake : addr.bytes.take serverAddressSize = [t, l] ++ e ++ [p, q] := by
    rw [h.bytes, ← hlength, List.take_left]
  rw [htake, writeRange_eq (by rwa [hlength, Nat.zero_add]), splice, List.take_zero,
    List.nil_append, Nat.zero_add, hlength]

theorem encode_domain (h : Layout addr domainName l e p q pad)
    (hbuf : serverAddressSize ≤ buf.length) (hl : l.toNat ≤ 64) :
    encodeServerAddressData addr buf.length buf =
      some (0, [domainName, l] ++ e ++ [q, p] ++ buf.drop serverAddressSize) := by
  rw [encodeServerAddressData, if_neg (not_lt.mpr hbuf), if_pos (.inr h.addrType_eq),
    if_neg (by rw [h.length_eq]; exact not_lt.mpr hl), run_bind (copy_eq h hbuf),
    if_neg (by rw [h.addrType_eq]; decide)]
  exact run_bind (swapPort_append (by simp [h.length_domain]))

theorem encode_ip (h : Layout addr ipAddress 4 (a :: b :: c :: d :: e) p q pad)
    (hbuf : serverAddressSize ≤ buf.length) :
    encodeServerAddressData addr buf.length buf =
      some (0, [ipAddress, 4] ++ (d :: c :: b :: a :: e) ++ [q, p] ++
        buf.drop serverAddressSize) := by
  have hlength : ([ipAddress, 4] ++ (d :: c :: b :: a :: e)).length = 66 := by
    simpa using h.length_domain
  rw [encodeServerAddressData, if_neg (not_lt.mpr hbuf), if_pos (.inl h.addrType_eq),
    if_neg (by rw [h.length_eq]; decide), run_bind (copy_eq h hbuf), if_pos h.addrType_eq]
  have hip : swapIp ([ipAddress, 4] ++ (a :: b :: c :: d :: e) ++ [p, q] ++
      buf.drop serverAddressSize) = some ((), [ipAddress, 4] ++ (d :: c :: b :: a :: e) ++ [p, q] ++
        buf.drop serverAddressSize) := swapIp_append ipAddress 4
  exact (run_bind hip).trans (run_bind (swapPort_append hlength))

/-! ## Parsing -/

theorem fetch_eq (h : buf[i]? = some a) (mem : List UInt8) :
    fetch buf i mem = some (a, mem) := by
  rw [fetch, h]
  rfl

/-- The port is taken from its bytes, whatever was written over the field. -/
theorem parsePort {u v : UInt8} (hd : e.length = 64) (ht : t ≠ invalidInternetAddress)
    (hvalue : parseValue buf buf.length addr.bytes = some ((), [t, l] ++ e ++ [u, v] ++ pad))
    (hp : buf[66]? = some p) (hq : buf[67]? = some q) :
    parseServerAddressData buf buf.length addr.bytes =
      some ((), [t, l] ++ e ++ [q, p] ++ pad) := by
  have hfits : 66 + (bytes16 (word16 p q)).length ≤ ([t, l] ++ e ++ [u, v] ++ pad).length := by
    simp only [bytes16, List.length_append, hd, List.length_cons, List.length_nil]
    omega
  have hlength : ([t, l] ++ e).length = 66 := by simp [hd]
  have hread : read 0 ([t, l] ++ e ++ [u, v] ++ pad) = some (t, [t, l] ++ e ++ [u, v] ++ pad) := rfl
  rw [parseServerAddressData, run_bind hvalue, run_bind hread, if_pos ht, run_bind (fetch_eq hp _),
    run_bind (fetch_eq hq _), writeRange_eq hfits, bytes16_word16, ← hlength]
  exact congrArg (fun s ↦ some ((), s)) (splice_append ([t, l] ++ e) [u, v] pad rfl)

theorem parseValue_ip (buf : List UInt8) (old : Layout addr t l (a :: b :: c :: d :: e) p q pad)
    (ht : buf[0]? = some ipAddress) {u v w x : UInt8} (hu : buf[2]? = some u)
    (hv : buf[3]? = some v) (hw : buf[4]? = some w) (hx : buf[5]? = some x) (maxLength : ℤ) :
    parseValue buf maxLength addr.bytes =
      some ((), [ipAddress, 4] ++ (x :: w :: v :: u :: e) ++ [p, q] ++ pad) := by
  have htype : write 0 ipAddress ([t, l] ++ (a :: b :: c :: d :: e) ++ [p, q] ++ pad) =
      some ((), [ipAddress, l] ++ (a :: b :: c :: d :: e) ++ [p, q] ++ pad) := write_eq _ (by simp)
  have hlength : write 1 4 ([ipAddress, l] ++ (a :: b :: c :: d :: e) ++ [p, q] ++ pad) =
      some ((), [ipAddress, 4] ++ (a :: b :: c :: d :: e) ++ [p, q] ++ pad) := write_eq _ (by simp)
  have hip : writeRange 2 (bytes32 (word32 u v w x))
      ([ipAddress, 4] ++ (a :: b :: c :: d :: e) ++ [p, q] ++ pad) =
        some ((), [ipAddress, 4] ++ (x :: w :: v :: u :: e) ++ [p, q] ++ pad) := by
    rw [bytes32_word32]
    exact writeRange_eq (by simp)
  rw [parseValue, run_bind (fetch_eq ht _), if_pos rfl, old.bytes, run_bind htype,
    run_bind hlength, run_bind (fetch_eq hu _), run_bind (fetch_eq hv _),
    run_bind (fetch_eq hw _), run_bind (fetch_eq hx _), hip]

/-- The bytes behind a name in an address, of which the first one is overwritten. -/
theorem terminated (old : Layout addr t l e p q pad) {n : ℕ} (hn : n ≤ 64) (name : List UInt8)
    (hname : name.length = n) : ∃ f u v pad' z rest, e.drop n ++ [p, q] ++ pad = z :: rest ∧
      name ++ 0 :: rest = name ++ f ++ [u, v] ++ pad' ∧ (name ++ f).length = 64 ∧
        pad'.length = 60 := by
  rcases Nat.lt_or_eq_of_le hn with hlt | rfl
  · have hdrop : (e.drop n).length = 64 - n := by rw [List.length_drop, old.length_domain]
    rcases he : e.drop n with _ | ⟨z, rest⟩
    · rw [he] at hdrop
      exact absurd hdrop.symm (Nat.sub_ne_zero_of_lt hlt)
    · rw [he, List.length_cons] at hdrop
      refine ⟨0 :: rest, p, q, pad, z, rest ++ [p, q] ++ pad, rfl, by simp, ?_, old.length_padding⟩
      rw [List.length_append, List.length_cons, hname]
      omega
  · -- the name fills its field
    refine ⟨[], 0, q, pad, p, q :: pad, ?_, by simp, by simpa using hname, old.length_padding⟩
    rw [← old.length_domain, List.drop_length]
    rfl

theorem parseValue_domain (buf : List UInt8) (old : Layout addr t l e p q pad)
    (ht : buf[0]? = some domainName)
    {k : UInt8} (hk : buf[1]? = some k) (hle : k.toNat ≤ 64) (hbuf : 2 + k.toNat ≤ buf.length) :
    ∃ f u v pad', parseValue buf buf.length addr.bytes =
      some ((), [domainName, k] ++ ((buf.drop 2).take k.toNat ++ f) ++ [u, v] ++ pad') ∧
        ((buf.drop 2).take k.toNat ++ f).length = 64 ∧ pad'.length = 60 := by
  set name := (buf.drop 2).take k.toNat with hdef
  have hname : name.length = k.toNat := by
    rw [hdef, List.length_take, List.length_drop]
    omega
  obtain ⟨f, u, v, pad', z, rest, hz, hrest, hlength, hpad⟩ := terminated old hle name hname
  refine ⟨f, u, v, pad', ?_, hlength, hpad⟩
  have htype : write 0 domainName ([t, l] ++ e ++ [p, q] ++ pad) =
      some ((), [domainName, l] ++ e ++ [p, q] ++ pad) := write_eq _ (by simp)
  have hk' : write 1 k ([domainName, l] ++ e ++ [p, q] ++ pad) =
      some ((), [domainName, k] ++ e ++ [p, q] ++ pad) := write_eq _ (by simp)
  have hcopy : writeRange 2 name ([domainName, k] ++ e ++ [p, q] ++ pad) =
      some ((), [domainName, k] ++ name ++ [z] ++ rest) := by
    have hsplice := splice_append_of_le [domainName, k] e ([p, q] ++ pad)
      (hname.trans_le (hle.trans old.length_domain.ge))
    rw [hname, ← List.append_assoc, List.append_assoc _ (e.drop _), ← List.append_assoc (e.drop _),
      hz] at hsplice
    rw [writeRange_eq (by simp [old.length_domain]; omega), List.append_assoc _ [z]]
    exact congrArg (fun s ↦ some ((), s)) hsplice
  have hend : write (2 + k.toNat) 0 ([domainName, k] ++ name ++ [z] ++ rest) =
      some ((), [domainName, k] ++ name ++ [0] ++ rest) := by
    have hlength' : ([domainName, k] ++ name).length = 2 + k.toNat := by simp [hname]; omega
    rw [write_eq _ (by simp [hname]; omega), ← hlength']
    exact congrArg (fun s ↦ some ((), s)) (splice_append ([domainName, k] ++ name) [z] rest rfl)
  have hint : (k.toNat : ℤ) ≤ (buf.length : ℤ) - 2 := by omega
  have hread : (StateT.lift (readRange 2 k.toNat buf) : BufferM (List UInt8 × List UInt8))
      ([domainName, k] ++ e ++ [p, q] ++ pad) =
        some ((name, buf), [domainName, k] ++ e ++ [p, q] ++ pad) := by
    rw [readRange_eq hbuf]
    rfl
  rw [parseValue, run_bind (fetch_eq ht _), if_neg (by decide), if_pos rfl,
    run_bind (fetch_eq hk _), if_pos hint, old.bytes, run_bind htype, run_bind hk', run_bind hread]
  refine (run_bind hcopy).trans (hend.trans ?_)
  rw [List.append_assoc _ [0], List.append_assoc _ name, List.singleton_append, hrest]
  simp only [List.append_assoc]

/-! ## Round trip -/

/-- Two addresses are the same as far as their type and length go. -/
structure Agrees (addr addr' : ServerAddress) : Prop where
  addrType : addr'.addrType = addr.addrType
  length : addr'.length = addr.length
  ip : addr.addrType = ipAddress → addr'.ip = addr.ip
  domain : addr.addrType = domainName →
    addr'.domain.take addr.length.toNat = addr.domain.take addr.length.toNat
  port : addr'.port = addr.port

/-- The address is encoded into a buffer, and parsed from it over an old address. -/
def RoundTrip (addr old : ServerAddress) (buf : List UInt8) (addr' : ServerAddress) : Prop :=
  ∃ buf', encodeServerAddressData addr buf.length buf = some (0, buf') ∧
    buf'.length = buf.length ∧
    parseServerAddressData buf' buf'.length old.bytes = some ((), addr'.bytes)

theorem exists_address (t l p q : UInt8) (he : e.length = 64) (hpad : pad.length = 60) :
    ∃ addr : ServerAddress, addr.bytes = [t, l] ++ e ++ [p, q] ++ pad ∧ Layout addr t l e p q pad :=
  ⟨⟨[t, l] ++ e ++ [p, q] ++ pad, by simp [he, hpad]⟩, rfl, ⟨rfl, he, hpad⟩⟩

/-- The bytes of the port in the encoding. -/
theorem port_bytes (x : List UInt8) (hx : x.length = 66) (a b : UInt8) (r : List UInt8) :
    (x ++ [a, b] ++ r)[66]? = some a ∧ (x ++ [a, b] ++ r)[67]? = some b := by
  have hlength : (x ++ [a]).length = 67 := by simp [hx]
  have hassoc : x ++ [a, b] ++ r = x ++ [a] ++ b :: r := by simp
  constructor
  · rw [List.append_assoc, List.getElem?_append_right hx.le, hx]
    rfl
  · rw [hassoc, List.getElem?_append_right hlength.le, hlength]
    rfl

theorem length_encoding {x : List UInt8} (hx : x.length = 66)
    (hbuf : serverAddressSize ≤ buf.length) :
    (x ++ [a, b] ++ buf.drop serverAddressSize).length = buf.length := by
  rw [serverAddressSize] at hbuf ⊢
  simp only [List.length_append, List.length_cons, List.length_nil, hx, List.length_drop]
  omega

theorem ip_roundTrip (old : ServerAddress) (hbuf : serverAddressSize ≤ buf.length)
    (ht : addr.addrType = ipAddress) (hl : addr.length = 4) :
    ∃ addr', RoundTrip addr old buf addr' ∧ Agrees addr addr' := by
  obtain ⟨t, l, e, p, q, pad, h⟩ := exists_layout addr
  obtain rfl := h.addrType_eq.symm.trans ht
  obtain rfl := h.length_eq.symm.trans hl
  obtain ⟨t₀, l₀, e₀, p₀, q₀, pad₀, hold⟩ := exists_layout old
  match e, h.length_domain, e₀, hold.length_domain with
  | a :: b :: c :: d :: e, he, a₀ :: b₀ :: c₀ :: d₀ :: e₀, he₀ =>
    have hlength : ([ipAddress, 4] ++ (d :: c :: b :: a :: e)).length = 66 := by
      simpa using he
    have he' : (a :: b :: c :: d :: e₀).length = 64 := by simpa using he₀
    obtain ⟨addr', haddr', hlayout⟩ :=
      exists_address ipAddress 4 p q he' hold.length_padding
    obtain ⟨hp, hq⟩ := port_bytes _ hlength q p (buf.drop serverAddressSize)
    have hvalue := parseValue_ip ([ipAddress, 4] ++ (d :: c :: b :: a :: e) ++ [q, p] ++
      buf.drop serverAddressSize) hold rfl rfl rfl rfl rfl
    refine ⟨addr', ⟨_, encode_ip h hbuf, length_encoding hlength hbuf, ?_⟩, ?_⟩
    · rw [haddr']
      exact parsePort he' (by decide) (hvalue _) hp hq
    · refine ⟨hlayout.addrType_eq.trans ht.symm, hlayout.length_eq.trans hl.symm, fun _ ↦ ?_,
        fun hc ↦ ?_, hlayout.port_eq.trans h.port_eq.symm⟩
      · exact hlayout.ip_eq.trans h.ip_eq.symm
      · exact absurd (ht.symm.trans hc) (by decide)

theorem domain_roundTrip (old : ServerAddress) (hbuf : serverAddressSize ≤ buf.length)
    (ht : addr.addrType = domainName) (hl : addr.length.toNat ≤ 64) :
    ∃ addr', RoundTrip addr old buf addr' ∧ Agrees addr addr' := by
  obtain ⟨t, l, e, p, q, pad, h⟩ := exists_layout addr
  obtain rfl := h.addrType_eq.symm.trans ht
  rw [h.length_eq] at hl
  obtain ⟨t₀, l₀, e₀, p₀, q₀, pad₀, hold⟩ := exists_layout old
  have hlength : ([domainName, l] ++ e).length = 66 := by simp [h.length_domain]
  have hencoded := length_encoding (a := q) (b := p) hlength hbuf
  have hname : (([domainName, l] ++ e ++ [q, p] ++ buf.drop serverAddressSize).drop 2).take
      l.toNat = e.take l.toNat := by
    have hdrop : ([domainName, l] ++ e ++ [q, p] ++ buf.drop serverAddressSize).drop 2 =
      e ++ ([q, p] ++ buf.drop serverAddressSize) := by simp
    rw [hdrop, List.take_append_of_le_length (by rwa [h.length_domain])]
  obtain ⟨f, u, v, pad', hvalue, hf, hpad'⟩ := parseValue_domain
    ([domainName, l] ++ e ++ [q, p] ++ buf.drop serverAddressSize) hold rfl rfl hl
    (by rw [hencoded]; rw [serverAddressSize] at hbuf; omega)
  rw [hname] at hvalue hf
  obtain ⟨addr', haddr', hlayout⟩ := exists_address domainName l p q hf hpad'
  obtain ⟨hp, hq⟩ := port_bytes _ hlength q p (buf.drop serverAddressSize)
  refine ⟨addr', ⟨_, encode_domain h hbuf hl, hencoded, ?_⟩, ?_⟩
  · rw [haddr']
    exact parsePort hf (by decide) hvalue hp hq
  · refine ⟨hlayout.addrType_eq.trans ht.symm, hlayout.length_eq.trans h.length_eq.symm,
      fun hc ↦ ?_, fun _ ↦ ?_, hlayout.port_eq.trans h.port_eq.symm⟩
    · exact absurd (ht.symm.trans hc) (by decide)
    · have htake : (e.take l.toNat).length = l.toNat := by
        rw [List.length_take, h.length_domain, Nat.min_eq_left hl]
      rw [hlayout.domain_eq, h.domain_eq, h.length_eq,
        List.take_append_of_le_length htake.ge, List.take_take, Nat.min_self]

/-- Any other address becomes invalid. -/
theorem invalid_roundTrip (old : ServerAddress) (hbuf : serverAddressSize ≤ buf.length)
    (hip : addr.addrType ≠ ipAddress) (hdomain : addr.addrType ≠ domainName) :
    ∃ addr', RoundTrip addr old buf addr' ∧ addr'.addrType = invalidInternetAddress := by
  obtain ⟨t₀, l₀, e₀, p₀, q₀, pad₀, hold⟩ := exists_layout old
  obtain ⟨addr', haddr', hlayout⟩ := exists_address invalidInternetAddress l₀ p₀ q₀
    hold.length_domain hold.length_padding
  match buf, hbuf with
  | b :: buf, hbuf =>
    refine ⟨addr', ⟨invalidInternetAddress :: buf, ?_, rfl, ?_⟩, hlayout.addrType_eq⟩
    · rw [encodeServerAddressData, if_neg (not_lt.mpr hbuf), if_neg (not_or.mpr ⟨hip, hdomain⟩)]
      exact run_bind (write_eq _ (Nat.succ_pos _))
    · have hvalue : parseValue (invalidInternetAddress :: buf)
          (invalidInternetAddress :: buf).length old.bytes = some ((), addr'.bytes) := by
        rw [parseValue, run_bind (fetch_eq rfl _), if_neg (by decide), if_neg (by decide),
          hold.bytes, haddr']
        exact write_eq _ (by simp)
      have hread : read 0 addr'.bytes = some (invalidInternetAddress, addr'.bytes) := by
        rw [haddr']
        rfl
      rw [parseServerAddressData, run_bind hvalue, run_bind hread, if_neg (by decide), run_pure]

/-- **Round trip.** An address of which the length fits is parsed as it was encoded; any other type
is parsed as an invalid address, and a name that is too long is refused. -/
theorem parse_encode (addr old : ServerAddress) (buf : List UInt8)
    (hbuf : serverAddressSize ≤ buf.length) :
    ((addr.addrType = ipAddress ∧ addr.length = 4 ∨
        addr.addrType = domainName ∧ addr.length.toNat ≤ 64) →
      ∃ addr', RoundTrip addr old buf addr' ∧ Agrees addr addr') ∧
    (addr.addrType ≠ ipAddress ∧ addr.addrType ≠ domainName →
      ∃ addr', RoundTrip addr old buf addr' ∧ addr'.addrType = invalidInternetAddress) ∧
    (addr.addrType = domainName ∧ 64 < addr.length.toNat →
      ∃ error ≠ 0, encodeServerAddressData addr buf.length buf = some (error, buf)) := by
  refine ⟨?_, fun ⟨hip, hdomain⟩ ↦ invalid_roundTrip old hbuf hip hdomain, fun ⟨ht, hl⟩ ↦ ?_⟩
  · rintro (⟨ht, hl⟩ | ⟨ht, hl⟩)
    · exact ip_roundTrip old hbuf ht hl
    · exact domain_roundTrip old hbuf ht hl
  · have hlong : addr.length.toNat > serverAddressSize - 4 := hl
    refine ⟨systemErrorTooLarge, by decide, ?_⟩
    rw [encodeServerAddressData, if_neg (not_lt.mpr hbuf), if_pos (.inr ht), if_pos hlong, run_pure]

/-- The name of 64 letters fills its field. -/
def longName : ServerAddress :=
  ⟨[domainName, 64] ++ List.replicate 64 97 ++ [0x33, 0x16] ++ List.replicate 60 0, by simp⟩

theorem parse_encode_longName :
    ∃ addr', RoundTrip longName (.zero 128) (List.replicate 128 0xff) addr' ∧
      Agrees longName addr' :=
  (parse_encode longName (.zero 128) (List.replicate 128 0xff) (by simp [serverAddressSize])).1
    (.inr ⟨rfl, le_rfl⟩)

end DuoFirmware.Hal
