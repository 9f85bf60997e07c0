import DuoFirmware.Comm.HandleEvent

/-!
# Where event messages are read and written

Which messages `handle_event` can read without leaving the buffer of the message. The options of a
message are not checked against its end, and the strings are terminated behind it; so that depends
on where the options end.
-/

namespace DuoFirmware.Comm.Subscriptions

open Bytes

variable {coap : CoAP} {channel : Channel} {mem mem' mem₁ : List UInt8} {e p n k src dst : ℕ}

/-! ## Options -/

theorem optionDecode_eq (h : coap.optionDecode (mem.drop p) = some (n, k)) :
    optionDecode coap p mem = some ((n, p + k), mem) := by
  rw [optionDecode, h]
  rfl

theorem optionDecode_eq_none (h : coap.optionDecode (mem.drop p) = none) :
    optionDecode coap p mem = none := by
  rw [optionDecode, h]
  rfl

/-- A header lies in the buffer, and is at most three bytes long without an extended delta. -/
theorem optionDecode_size_le (hrfc : FollowsRfc coap) {l : List UInt8}
    (h : coap.optionDecode l = some (n, k)) : k ≤ l.length := by
  cases l with
  | nil =>
    rw [hrfc.nil] at h
    cases h
  | cons b r =>
    by_cases hb : b.toNat % 16 = 15
    · obtain ⟨k', hk', heq⟩ := hrfc.reserved b r hb
      rw [heq] at h
      obtain ⟨-, rfl⟩ := Prod.mk.inj (Option.some.inj h)
      exact hk'.trans (Nat.succ_le_succ (Nat.zero_le _))
    · rw [hrfc.regular b r hb, optionHeader] at h
      split at h
      · rename_i hle
        obtain ⟨-, rfl⟩ := Prod.mk.inj (Option.some.inj h)
        rw [List.length_cons]
        omega
      · cases h

/-- An option with a certain delta starts in the message. -/
def HasOption (mem : List UInt8) (e src : ℕ) (delta : UInt8) : Prop :=
  src < e ∧ ∃ b, mem[src]? = some b ∧ b &&& 0xf0 = delta

/-- The path options from `src` on, with the name from `dst` on: where the next option starts, if
the loop gets there, and where the name ends. -/
inductive Path (coap : CoAP) (mem : List UInt8) (e : ℕ) : ℕ → ℕ → Option ℕ → ℕ → Prop
  | done {src dst : ℕ} (h : ¬ HasOption mem e src 0) : Path coap mem e src dst (some src) dst
  | next {src dst n k : ℕ} {s : Option ℕ} {d : ℕ} (h : HasOption mem e src 0)
      (hdecode : coap.optionDecode (mem.drop src) = some (n, k)) (hle : dst + 1 ≤ src + k)
      (hfits : dst + 1 = src + k ∨ src + k + n ≤ mem.length)
      (hrest : Path coap mem e (src + k + n) (dst + 1 + n) s d) : Path coap mem e src dst s d
  | stuck {src n : ℕ} (h : HasOption mem e src 0)
      (hdecode : coap.optionDecode (mem.drop src) = some (n, 0)) :
      Path coap mem e src src none (src + 1)

/-- A payload leaves room for the zero byte behind it. -/
def PayloadFits (mem : List UInt8) (e src : ℕ) : Prop :=
  src < e → mem[src]? = some 0xff → e < mem.length

/-- What follows the path options. -/
inductive Tail (coap : CoAP) (mem : List UInt8) (e : ℕ) : Option ℕ → Prop
  | abandoned : Tail coap mem e none
  | payload {src : ℕ} (h : ¬ HasOption mem e src 0x30) (hfits : PayloadFits mem e src) :
      Tail coap mem e (some src)
  | maxAge {src n k : ℕ} (h : HasOption mem e src 0x30)
      (hdecode : coap.optionDecode (mem.drop src) = some (n, k))
      (hfits : PayloadFits mem e (src + k + n)) : Tail coap mem e (some src)

/-- The options of a message, and the ends of its strings, lie in the buffer. -/
def ParseFits (coap : CoAP) (mem : List UInt8) (e : ℕ) : Prop :=
  ∃ first n k, mem[0]? = some first ∧
    coap.optionDecode (mem.drop (6 + first.toNat % 16)) = some (n, k) ∧
    (n = 0 ∨ ∃ s d, Path coap mem e (6 + first.toNat % 16 + k + n) (6 + first.toNat % 16 + k + n)
      s d ∧ d < mem.length ∧ Tail coap mem e s)

/-! ## The loop over the path options -/

/-- Where the loop stops. -/
def Stops (mem mem' : List UInt8) (e : ℕ) (x : ℕ) : Option ℕ → Prop
  | some y => x = y ∧ mem'.drop y = mem.drop y
  | none => x < e ∧ mem'[x]? = some 47

theorem getElem?_of_drop_eq (h : mem₁.drop src = mem.drop src) (i : ℕ) (hi : src ≤ i) :
    mem₁[i]? = mem[i]? := by
  obtain ⟨j, rfl⟩ := Nat.exists_eq_add_of_le hi
  rw [← List.getElem?_drop, h, List.getElem?_drop]

/-- **A round of the loop** in which the name stays behind the source. -/
theorem pathRound_eq (hlen : mem₁.length = mem.length)
    (hdrop : mem₁.drop src = mem.drop src) (hdst : dst < mem.length)
    (hdecode : coap.optionDecode (mem.drop src) = some (n, k)) (hle : dst + 1 ≤ src + k)
    (hfits : dst + 1 = src + k ∨ src + k + n ≤ mem.length) :
    ∃ mem₂, pathRound coap src dst mem₁ = some ((src + k + n, dst + 1 + n), mem₂) ∧
      mem₂.length = mem.length ∧ mem₂.drop (src + k + n) = mem.drop (src + k + n) := by
  rw [← hdrop] at hdecode
  have hwrite := write_eq (47 : UInt8) (hlen.symm ▸ hdst)
  have hlen₁ : (splice mem₁ dst [47]).length = mem.length := by
    rw [length_splice (by rw [hlen]; exact hdst), hlen]
  have hdrop₁ : ∀ i, src + k ≤ i → (splice mem₁ dst [47]).drop i = mem.drop i := fun i hi ↦ by
    rw [drop_splice (by exact hle.trans hi) (by rw [hlen]; exact hdst.le)]
    rw [← Nat.add_sub_cancel' ((Nat.le_add_right src k).trans hi), ← List.drop_drop, hdrop,
      List.drop_drop]
  rw [pathRound, run_bind (optionDecode_eq hdecode)]
  dsimp only
  rw [run_bind hwrite]
  by_cases hback : dst + 1 = src + k
  · -- the value is where it belongs
    rw [if_neg (not_not.mpr hback)]
    exact ⟨_, rfl, hlen₁, hdrop₁ _ (Nat.le_add_right _ _)⟩
  · have hsrc := hfits.resolve_left hback
    have hmove : memmove (dst + 1) (src + k) n (splice mem₁ dst [47]) = some ((), _) :=
      memmove_eq (by rwa [hlen₁]) (by rw [hlen₁]; omega)
    rw [if_pos hback, run_bind hmove]
    have hn : (((splice mem₁ dst [47]).drop (src + k)).take n).length ≤ n :=
      List.length_take_le _ _
    refine ⟨_, rfl, ?_, ?_⟩
    · rw [length_splice (by rw [hlen₁]; omega), hlen₁]
    · rw [drop_splice (by omega) (by rw [hlen₁]; omega), hdrop₁ _ (Nat.le_add_right _ _)]

/-- A round fails when it cannot read the value that it has to move. -/
theorem pathRound_eq_none (hlen : mem₁.length = mem.length)
    (hdrop : mem₁.drop src = mem.drop src) (hdst : dst < mem.length)
    (hdecode : coap.optionDecode (mem.drop src) = some (n, k)) (hne : dst + 1 ≠ src + k)
    (hk : src + k ≤ mem.length) (hfits : mem.length < src + k + n) :
    pathRound coap src dst mem₁ = none := by
  rw [← hdrop] at hdecode
  have hlen₁ : (splice mem₁ dst [47]).length = mem.length := by
    rw [length_splice (by rw [hlen]; exact hdst), hlen]
  rw [pathRound, run_bind (optionDecode_eq hdecode)]
  dsimp only
  rw [run_bind (write_eq (47 : UInt8) (hlen.symm ▸ hdst)), if_pos hne]
  exact run_bind_none (memmove_eq_none (by omega) (by rwa [hlen₁]))

/-- A round from where the name is, when the header is not passed. -/
theorem pathRound_stuck (hlen : mem₁.length = mem.length)
    (hdrop : mem₁.drop src = mem.drop src) (hsrc : src < mem.length)
    (hdecode : coap.optionDecode (mem.drop src) = some (0, 0)) :
    ∃ mem₂, pathRound coap src src mem₁ = some ((src, src + 1), mem₂) ∧
      mem₂.length = mem.length ∧ mem₂[src]? = some 47 := by
  rw [← hdrop] at hdecode
  have hsrc₁ : src < mem₁.length := hlen.symm ▸ hsrc
  have hlen₁ : (splice mem₁ src [47]).length = mem.length := by
    rw [length_splice hsrc₁, hlen]
  have hmove : memmove (src + 1) (src + 0) 0 (splice mem₁ src [47]) = some ((), _) :=
    memmove_eq (by rw [hlen₁]; exact hsrc.le) (by rw [hlen₁]; exact hsrc)
  rw [pathRound, run_bind (optionDecode_eq hdecode)]
  dsimp only
  rw [run_bind (write_eq (47 : UInt8) hsrc₁),
    if_pos (show src + 1 ≠ src + 0 from Nat.succ_ne_self src),
    run_bind hmove,
    List.take_zero, splice_nil]
  refine ⟨_, rfl, hlen₁, ?_⟩
  rw [splice, List.append_assoc, List.getElem?_append_right (List.length_take_le _ _),
    List.length_take, Nat.min_eq_left hsrc₁.le, Nat.sub_self]
  rfl

/-- The upper half of a byte. -/
theorem div_of_and (b : UInt8) : b.toNat / 16 = (b &&& 0xf0).toNat / 16 := by
  have hall : ∀ n < 256, n / 16 = (n &&& 240) / 16 := by decide +kernel
  rw [UInt8.toNat_and]
  exact hall b.toNat b.toNat_lt

/-- What a path option is read as. -/
theorem optionDecode_path (hrfc : FollowsRfc coap) (h : HasOption mem e src 0)
    (hdecode : coap.optionDecode (mem.drop src) = some (n, k)) :
    k ≤ 3 ∧ (k = 0 → n = 0) ∧ src + k ≤ mem.length := by
  obtain ⟨-, b, hb, hdelta⟩ := h
  obtain ⟨hsrc, hget⟩ := List.getElem?_eq_some_iff.mp hb
  have hle := optionDecode_size_le hrfc hdecode
  rw [List.length_drop] at hle
  rw [List.drop_eq_getElem_cons hsrc, hget] at hdecode
  refine ⟨?_, ?_, by omega⟩
  all_goals
    by_cases hres : b.toNat % 16 = 15
    · obtain ⟨k', hk', heq⟩ := hrfc.reserved b (mem.drop (src + 1)) hres
      rw [heq] at hdecode
      obtain ⟨rfl, rfl⟩ := Prod.mk.inj (Option.some.inj hdecode)
      omega
    · rw [hrfc.regular b _ hres] at hdecode
      have hsmall : b.toNat / 16 < 13 := by
        rw [div_of_and, hdelta]
        decide
      have := optionHeader_size_le hsmall hdecode
      omega

/-- The loop ends where there is no path option. -/
theorem pathLoop_end (rounds : ℕ) (h : src < e → ∃ b, mem[src]? = some b ∧ b &&& 0xf0 ≠ 0) :
    pathLoop coap e rounds src dst mem = some ((src, dst), mem) := by
  by_cases hend : src < e
  · obtain ⟨b, hget, hne⟩ := h hend
    cases rounds <;> rw [pathLoop, if_pos hend, run_bind (read_eq_some hget), if_neg hne] <;> rfl
  · cases rounds <;> rw [pathLoop, if_neg hend] <;> rfl

theorem not_hasOption_iff (he : e ≤ mem.length) {delta : UInt8} : ¬ HasOption mem e src delta ↔
    (src < e → ∃ b, mem[src]? = some b ∧ b &&& 0xf0 ≠ delta) := by
  constructor
  · intro h hsrc
    have hget := List.getElem?_eq_getElem (hsrc.trans_le he)
    exact ⟨_, hget, fun hc ↦ h ⟨hsrc, _, hget, hc⟩⟩
  · rintro h ⟨hsrc, b, hb, hdelta⟩
    obtain ⟨b', hb', hne⟩ := h hsrc
    rw [hb, Option.some.injEq] at hb'
    exact hne (hb' ▸ hdelta)

/-- A path option that is passed can be read. -/
theorem Path.decodes {s : Option ℕ} {d : ℕ} (h : Path coap mem e src dst s d)
    (hopt : HasOption mem e src 0) : coap.optionDecode (mem.drop src) ≠ none := by
  intro hnone
  cases h with
  | done hno => exact hno hopt
  | next _ hdecode => rw [hnone] at hdecode; cases hdecode
  | stuck _ hdecode => rw [hnone] at hdecode; cases hdecode

/-- What follows a path option. -/
theorem Path.inv {s : Option ℕ} {d : ℕ} (h : Path coap mem e src dst s d)
    (hopt : HasOption mem e src 0) (hdecode : coap.optionDecode (mem.drop src) = some (n, k)) :
    (dst + 1 ≤ src + k ∧ (dst + 1 = src + k ∨ src + k + n ≤ mem.length) ∧
      Path coap mem e (src + k + n) (dst + 1 + n) s d) ∨
    (k = 0 ∧ dst = src ∧ s = none ∧ d = src + 1) := by
  cases h with
  | done hno => exact absurd hopt hno
  | next _ hdecode' hle hfits hrest =>
    rw [hdecode] at hdecode'
    cases hdecode'
    exact .inl ⟨hle, hfits, hrest⟩
  | stuck _ hdecode' =>
    rw [hdecode] at hdecode'
    cases hdecode'
    exact .inr ⟨rfl, rfl, rfl, rfl⟩

/-- **The loop over the path options** gets to their end, or leaves the buffer. -/
theorem pathLoop_spec (hrfc : FollowsRfc coap) (he : e ≤ mem.length) (rounds src dst : ℕ)
    (hrounds : 3 * (e - src) + (src - dst) ≤ rounds) (hle : dst ≤ src)
    (hlen : mem₁.length = mem.length) (hdrop : mem₁.drop src = mem.drop src) :
    (∃ s d x mem', Path coap mem e src dst s d ∧
      pathLoop coap e rounds src dst mem₁ = some ((x, d), mem') ∧ mem'.length = mem.length ∧
      Stops mem mem' e x s) ∨
    (pathLoop coap e rounds src dst mem₁ = none ∧ ∀ s d, ¬ Path coap mem e src dst s d) := by
  induction rounds generalizing src dst mem₁ with
  | zero =>
    -- the source is at the end
    have hend : ¬ src < e := by omega
    exact .inl ⟨some src, dst, src, mem₁, .done fun hc ↦ hend hc.1,
      pathLoop_end 0 fun hc ↦ absurd hc hend, hlen, rfl, hdrop⟩
  | succ rounds ih =>
    by_cases hopt : HasOption mem e src 0
    · obtain ⟨hend, b, hb, hpath⟩ := id hopt
      have hsrc : src < mem.length := hend.trans_le he
      rw [← getElem?_of_drop_eq hdrop src le_rfl] at hb
      rw [pathLoop, if_pos hend, run_bind (read_eq_some hb), if_pos hpath]
      rcases hdecode : coap.optionDecode (mem.drop src) with _ | ⟨n, k⟩
      · -- the header is not in the buffer
        have hfail : pathRound coap src dst mem₁ = none :=
          run_bind_none (optionDecode_eq_none (hdrop ▸ hdecode))
        exact .inr ⟨run_bind_none hfail, fun s d hp ↦ hp.decodes hopt hdecode⟩
      obtain ⟨hk, hzero, hheader⟩ := optionDecode_path hrfc hopt hdecode
      by_cases hnext : dst + 1 ≤ src + k
      · by_cases hfits : dst + 1 = src + k ∨ src + k + n ≤ mem.length
        · obtain ⟨mem₂, hround, hlen₂, hdrop₂⟩ := pathRound_eq hlen hdrop (by omega) hdecode hnext
            hfits
          rw [run_bind hround]
          have hmeasure : 3 * (e - (src + k + n)) + (src + k + n - (dst + 1 + n)) ≤ rounds := by
            omega
          rcases ih _ _ hmeasure (by omega) hlen₂ hdrop₂ with
            ⟨s, d, x, mem', hp, hrun, hrest⟩ | ⟨hrun, hp⟩
          · exact .inl ⟨s, d, x, mem', .next hopt hdecode hnext hfits hp, hrun, hrest⟩
          · refine .inr ⟨hrun, fun s d hp' ↦ ?_⟩
            rcases hp'.inv hopt hdecode with ⟨-, -, hrest⟩ | ⟨hk', hdst, -, -⟩
            · exact hp s d hrest
            · omega
        · -- a value that has to be moved is not in the buffer
          have hfail := pathRound_eq_none hlen hdrop (by omega) hdecode
            (fun hc ↦ hfits (.inl hc)) hheader (not_le.mp fun hc ↦ hfits (.inr hc))
          refine .inr ⟨run_bind_none hfail, fun s d hp ↦ ?_⟩
          rcases hp.inv hopt hdecode with ⟨-, hfits', -⟩ | ⟨hk', hdst, -, -⟩
          · exact hfits hfits'
          · omega
      · -- the slash has overwritten the header
        obtain rfl : dst = src := by omega
        obtain rfl : k = 0 := by omega
        obtain rfl := hzero rfl
        obtain ⟨mem₂, hround, hlen₂, hslash⟩ := pathRound_stuck hlen hdrop hsrc hdecode
        refine .inl ⟨none, dst + 1, dst, mem₂, .stuck hopt hdecode, ?_, hlen₂, hend, hslash⟩
        rw [run_bind hround]
        exact pathLoop_end rounds fun _ ↦ ⟨47, hslash, by decide⟩
    · rw [not_hasOption_iff he] at hopt
      have hopt₁ : src < e → ∃ b, mem₁[src]? = some b ∧ b &&& 0xf0 ≠ 0 := by
        rwa [getElem?_of_drop_eq hdrop src le_rfl]
      exact .inl ⟨some src, dst, src, mem₁, .done ((not_hasOption_iff he).mpr hopt),
        pathLoop_end (rounds + 1) hopt₁, hlen, rfl, hdrop⟩

theorem Path.le {s : Option ℕ} {d : ℕ} (h : Path coap mem e src dst s d) : dst ≤ d := by
  induction h with
  | done _ => exact le_rfl
  | next _ _ _ _ _ ih => omega
  | stuck _ _ => exact Nat.le_succ _

/-- The options end in one place. -/
theorem Path.unique {s s' : Option ℕ} {d d' : ℕ} (h : Path coap mem e src dst s d)
    (h' : Path coap mem e src dst s' d') : s = s' ∧ d = d' := by
  induction h with
  | done hnone =>
    cases h' with
    | done => exact ⟨rfl, rfl⟩
    | next hopt => exact absurd hopt hnone
    | stuck hopt => exact absurd hopt hnone
  | next hopt hdecode hle _ _ ih =>
    rcases h'.inv hopt hdecode with ⟨-, -, hrest⟩ | ⟨hk, hdst, -, -⟩
    · exact ih hrest
    · omega
  | stuck hopt hdecode =>
    rcases h'.inv hopt hdecode with ⟨hle, -, -⟩ | ⟨-, -, rfl, rfl⟩
    · omega
    · exact ⟨rfl, rfl⟩

/-! ## What follows the path options -/

theorem payload_spec (src : ℕ) (he : e ≤ mem.length) (hlen : mem₁.length = mem.length)
    (hget : src < e → mem₁[src]? = mem[src]?) :
    (PayloadFits mem e src ∧ ∃ data mem', payload e src mem₁ = some (data, mem') ∧
      mem'.length = mem.length) ∨
    (¬ PayloadFits mem e src ∧ payload e src mem₁ = none) := by
  by_cases hend : src < e
  · have hb := List.getElem?_eq_getElem (hend.trans_le he)
    have hread := read_eq_some ((hget hend).trans hb)
    rw [payload, if_pos hend, run_bind hread]
    by_cases hmarker : mem[src] = 0xff
    · rw [if_pos hmarker]
      by_cases hroom : e < mem.length
      · refine .inl ⟨fun _ _ ↦ hroom, some (src + 1), splice mem₁ e [0], ?_, ?_⟩
        · rw [run_bind (write_eq (0 : UInt8) (hlen.symm ▸ hroom))]
          rfl
        · rw [length_splice (by rw [hlen]; exact hroom), hlen]
      · refine .inr ⟨fun hc ↦ hroom (hc hend (by rw [hb, hmarker])), ?_⟩
        exact run_bind_none (write_eq_none (0 : UInt8) (hlen.symm ▸ not_lt.mp hroom))
    · rw [if_neg hmarker]
      refine .inl ⟨fun _ hc ↦ absurd ?_ hmarker, none, mem₁, rfl, hlen⟩
      rw [hb] at hc
      exact Option.some.inj hc
  · rw [payload, if_neg hend]
    exact .inl ⟨fun hc ↦ absurd hc hend, none, mem₁, rfl, hlen⟩

/-- What has to fit behind a Max-Age option. -/
theorem tail_iff_maxAge {x : ℕ} (hopt : HasOption mem e x 0x30)
    (hdecode : coap.optionDecode (mem.drop x) = some (n, k)) :
    Tail coap mem e (some x) ↔ PayloadFits mem e (x + k + n) := by
  refine ⟨fun h ↦ ?_, .maxAge hopt hdecode⟩
  cases h with
  | payload hno _ => exact absurd hopt hno
  | maxAge _ hdecode' hfits =>
    rw [hdecode] at hdecode'
    cases hdecode'
    exact hfits

/-- A Max-Age option has to be one that can be read. -/
theorem not_tail_of_decode {x : ℕ} (hopt : HasOption mem e x 0x30)
    (hdecode : coap.optionDecode (mem.drop x) = none) : ¬ Tail coap mem e (some x) := by
  intro h
  cases h with
  | payload hno _ => exact hno hopt
  | maxAge _ hdecode' _ => rw [hdecode] at hdecode'; cases hdecode'

/-- What has to fit without one. -/
theorem tail_iff_payload {x : ℕ} (hopt : ¬ HasOption mem e x 0x30) :
    Tail coap mem e (some x) ↔ PayloadFits mem e x := by
  refine ⟨fun h ↦ ?_, .payload hopt⟩
  cases h with
  | payload _ hfits => exact hfits
  | maxAge hopt' _ _ => exact absurd hopt' hopt

/-- What follows the path options is read, or the buffer is left. -/
theorem tail_spec (coap : CoAP) (he : e ≤ mem.length) (hlen : mem₁.length = mem.length) {x : ℕ}
    {s : Option ℕ} (hstops : Stops mem mem₁ e x s) :
    (Tail coap mem e s ∧ ∃ y data mem', skipMaxAge coap e x mem₁ = some (y, mem₁) ∧
      payload e y mem₁ = some (data, mem') ∧ mem'.length = mem.length) ∨
    (¬ Tail coap mem e s ∧ (skipMaxAge coap e x mem₁ = none ∨
      ∃ y, skipMaxAge coap e x mem₁ = some (y, mem₁) ∧ payload e y mem₁ = none)) := by
  cases s with
  | none =>
    -- the slash is neither an option nor a payload marker
    obtain ⟨hend, hslash⟩ := hstops
    have hread := read_eq_some hslash
    refine .inl ⟨.abandoned, x, none, mem₁, ?_, ?_, hlen⟩
    · rw [skipMaxAge, if_pos hend, run_bind hread, if_neg (by decide)]
      rfl
    · rw [payload, if_pos hend, run_bind hread, if_neg (by decide)]
      rfl
  | some y =>
    obtain ⟨rfl, hdrop⟩ := hstops
    have hget : ∀ i, x ≤ i → mem₁[i]? = mem[i]? := getElem?_of_drop_eq hdrop
    by_cases hopt : HasOption mem e x 0x30
    · obtain ⟨hend, b, hb, hdelta⟩ := id hopt
      have hread := read_eq_some ((hget x le_rfl).trans hb)
      rw [skipMaxAge, if_pos hend, run_bind hread, if_pos hdelta]
      rcases hdecode : coap.optionDecode (mem.drop x) with _ | ⟨n, k⟩
      · have hfail := optionDecode_eq_none (hdrop ▸ hdecode)
        exact .inr ⟨not_tail_of_decode hopt hdecode, .inl (run_bind_none hfail)⟩
      · have hskip := optionDecode_eq (hdrop ▸ hdecode)
        rw [run_bind hskip, tail_iff_maxAge hopt hdecode]
        rcases payload_spec (x + k + n) he hlen fun _ ↦ hget _ (by omega) with
          ⟨hfits, data, mem', hrun, hlen'⟩ | ⟨hfits, hrun⟩
        · exact .inl ⟨hfits, _, data, mem', rfl, hrun, hlen'⟩
        · exact .inr ⟨hfits, .inr ⟨_, rfl, hrun⟩⟩
    · have hskip : skipMaxAge coap e x mem₁ = some (x, mem₁) := by
        rw [skipMaxAge]
        by_cases hend : x < e
        · obtain ⟨b, hb, hne⟩ := (not_hasOption_iff he).mp hopt hend
          rw [if_pos hend, run_bind (read_eq_some ((hget x le_rfl).trans hb)), if_neg hne]
          rfl
        · rw [if_neg hend]
          rfl
      rw [tail_iff_payload hopt]
      rcases payload_spec x he hlen fun _ ↦ hget _ le_rfl with
        ⟨hfits, data, mem', hrun, hlen'⟩ | ⟨hfits, hrun⟩
      · exact .inl ⟨hfits, x, data, mem', hskip, hrun, hlen'⟩
      · exact .inr ⟨hfits, .inr ⟨x, hskip, hrun⟩⟩

/-- Whether an entry matches the name of an event. -/
def matchesName (name : List UInt8) (h : FilteringEventHandler) : Bool :=
  strnlen h.filter.bytes 64 ≤ name.length ∧
    memcmp h.filter.bytes name (strnlen h.filter.bytes 64)

/-- **The loop over the table** calls the handlers in use that match the name. -/
theorem dispatch_eq (callEventHandler : Bool) (data : Option ℕ) (hfits : p + n ≤ mem.length)
    (hs : List FilteringEventHandler) :
    dispatch callEventHandler p n data hs mem =
      some (((hs.takeWhile (·.handler ≠ 0)).filter (matchesName ((mem.drop p).take n))).map
        (invocation callEventHandler · p data), mem) := by
  have hname : ((mem.drop p).take n).length = n := by
    rw [List.length_take, List.length_drop]
    omega
  induction hs with
  | nil => rfl
  | cons h hs ih =>
    rw [dispatch]
    by_cases hused : h.handler = 0
    · rw [if_pos hused, List.takeWhile_cons_of_neg (by simpa using hused)]
      rfl
    · rw [if_neg hused, List.takeWhile_cons_of_pos (by simpa using hused)]
      by_cases hlt : n < strnlen h.filter.bytes 64
      · have hno : matchesName ((mem.drop p).take n) h = false := by
          rw [matchesName, hname]
          exact decide_eq_false fun hc ↦ absurd hc.1 (not_le.mpr hlt)
        rw [if_pos hlt, ih, List.filter_cons_of_neg (by rw [hno]; exact Bool.false_ne_true)]
      · have hle := not_lt.mp hlt
        have hread : readRange p (strnlen h.filter.bytes 64) mem = some (_, mem) :=
          readRange_eq (by omega)
        have hmatch : matchesName ((mem.drop p).take n) h =
            memcmp h.filter.bytes ((mem.drop p).take (strnlen h.filter.bytes 64))
              (strnlen h.filter.bytes 64) := by
          rw [matchesName, hname, memcmp, memcmp, List.take_take, List.take_take, Nat.min_self,
            Nat.min_eq_left hle]
          simp [hle]
        rw [if_neg hlt, run_bind hread, run_bind ih, ← hmatch]
        cases hcmp : matchesName ((mem.drop p).take n) h with
        | true =>
          rw [if_pos rfl, List.filter_cons_of_pos hcmp]
          rfl
        | false =>
          rw [if_neg Bool.false_ne_true, List.filter_cons_of_neg (by simp [hcmp])]
          rfl

/-! ## Messages -/

/-- What has to fit behind the first option. -/
theorem parseFits_iff {first : UInt8} (hfirst : mem[0]? = some first)
    (hdecode : coap.optionDecode (mem.drop (6 + first.toNat % 16)) = some (n, k)) :
    ParseFits coap mem e ↔ n = 0 ∨ ∃ s d, Path coap mem e
      (6 + first.toNat % 16 + k + n) (6 + first.toNat % 16 + k + n) s d ∧ d < mem.length ∧
        Tail coap mem e s := by
  constructor
  · rintro ⟨b, n', k', hb, hdecode', h⟩
    rw [hfirst] at hb
    cases hb
    rw [hdecode] at hdecode'
    cases hdecode'
    exact h
  · exact fun h ↦ ⟨first, n, k, hfirst, hdecode, h⟩

/-- **Parsing stays in the buffer** if and only if the options and the strings do. -/
theorem parseEvent_isSome_iff (hrfc : FollowsRfc coap) (he : e ≤ mem.length)
    (callEventHandler : Bool) (s : Subscriptions) :
    (parseEvent coap callEventHandler s e mem).isSome ↔ ParseFits coap mem e := by
  rcases hfirst : mem[0]? with _ | first
  · have hfail : Bytes.read 0 mem = none := read_eq_none (List.getElem?_eq_none_iff.mp hfirst)
    rw [parseEvent, run_bind_none hfail]
    apply iff_of_false Bool.false_ne_true
    rintro ⟨b, n, k, hb, -⟩
    rw [hfirst] at hb
    cases hb
  rw [parseEvent, run_bind (read_eq_some hfirst)]
  rcases hdecode : coap.optionDecode (mem.drop (6 + first.toNat % 16)) with _ | ⟨n, k⟩
  · rw [run_bind_none (optionDecode_eq_none hdecode)]
    apply iff_of_false Bool.false_ne_true
    rintro ⟨b, n, k, hb, hdecode', -⟩
    rw [hfirst] at hb
    cases hb
    rw [hdecode] at hdecode'
    cases hdecode'
  -- from here on the first option is known
  rw [parseFits_iff hfirst hdecode, run_bind (optionDecode_eq hdecode)]
  dsimp only
  by_cases hzero : n = 0
  · rw [if_pos hzero]
    exact iff_of_true rfl (.inl hzero)
  rw [if_neg hzero, or_iff_right hzero]
  generalize hstart : 6 + first.toNat % 16 + k = start
  rcases pathLoop_spec hrfc he (3 * e) (start + n) (start + n) (by omega) le_rfl rfl rfl with
    ⟨s', d, x, mem₁, hpath, hrun, hlen, hstops⟩ | ⟨hrun, hpath⟩
  · rw [run_bind hrun]
    dsimp only
    have hstartd : start ≤ d := (Nat.le_add_right _ _).trans hpath.le
    have hname : start + (d - start) = d := Nat.add_sub_cancel' hstartd
    have hunique : (∃ s d, Path coap mem e (start + n) (start + n) s d ∧ d < mem.length ∧
        Tail coap mem e s) ↔ d < mem.length ∧ Tail coap mem e s' := by
      constructor
      · rintro ⟨s, d', hpath', hrest⟩
        obtain ⟨rfl, rfl⟩ := hpath.unique hpath'
        exact hrest
      · exact fun hrest ↦ ⟨s', d, hpath, hrest⟩
    rw [hunique]
    rcases tail_spec coap he hlen hstops with
      ⟨htail, y, data, mem₂, hskip, hpayload, hlen₂⟩ | ⟨htail, hskip | ⟨y, hskip, hpayload⟩⟩
    · rw [run_bind hskip, run_bind hpayload, and_iff_left htail, hname]
      by_cases hroom : d < mem.length
      · have hlen₃ : (splice mem₂ d [0]).length = mem.length := by
          rw [length_splice (by rw [hlen₂]; exact hroom), hlen₂]
        rw [run_bind (write_eq (0 : UInt8) (hlen₂.symm ▸ hroom)),
          run_bind (dispatch_eq callEventHandler data (by rw [hlen₃, hname]; exact hroom.le) _)]
        exact iff_of_true rfl hroom
      · rw [run_bind_none (write_eq_none (0 : UInt8) (hlen₂.symm ▸ not_lt.mp hroom))]
        exact iff_of_false Bool.false_ne_true hroom
    · rw [run_bind_none hskip]
      exact iff_of_false Bool.false_ne_true fun hc ↦ htail hc.2
    · rw [run_bind hskip, run_bind_none hpayload]
      exact iff_of_false Bool.false_ne_true fun hc ↦ htail hc.2
  · rw [run_bind_none hrun]
    apply iff_of_false Bool.false_ne_true
    rintro ⟨s', d, hp, -⟩
    exact hpath s' d hp

/-- What a channel reserves around its messages. -/
def reserved (channel : Channel) : ℕ := channel.buffer.prefixLen + channel.buffer.suffixLen

/-- There is room for an acknowledgement behind a message. -/
def HasRoom (channel : Channel) (m : Message) : Prop := 5 + reserved channel ≤ m.bufferAvailable

instance (channel : Channel) (m : Message) : Decidable (HasRoom channel m) :=
  inferInstanceAs (Decidable (_ ≤ _))

/-- The acknowledgement of a message. -/
def ack (channel : Channel) (m : Message) : Message :=
  ((Message.new.setBuffer (m.buf + m.length + reserved channel) m.bufferAvailable).setLength
    4).setId m.getId

/-- The bytes of an acknowledgement. -/
def ackBytes : List UInt8 := [0x60, 0, 0, 0]

/-- The buffer of a message with its acknowledgement. -/
def withAck (channel : Channel) (m : Message) (mem : List UInt8) : List UInt8 :=
  splice mem (m.length + reserved channel) ackBytes

theorem length_withAck {m : Message} (hcap : m.capacity = mem.length) (h : HasRoom channel m) :
    m.length + reserved channel + 4 ≤ mem.length := by
  have hle := m.length_le
  change 5 + reserved channel ≤ m.bufferLength - m.messageLength at h
  change m.bufferLength = _ at hcap
  change m.messageLength + _ + 4 ≤ _
  omega

/-- **Acknowledging** stays in the buffer. -/
theorem acknowledge_eq (channel : Channel) {m : Message} (hcap : m.capacity = mem.length) :
    (HasRoom channel m → acknowledge channel m mem =
      some (channel.send (ack channel m) ackBytes, withAck channel m mem)) ∧
    (¬ HasRoom channel m → acknowledge channel m mem = some (.noError, mem)) := by
  have hsmall : 5 + reserved channel < sizeMax := by
    have h1 := channel.max_le
    have h2 := channel.buffer.reserved_le
    rw [reserved, sizeMax]
    omega
  have hresponse := BufferMessageChannel.response_eq (c := channel.buffer) m .new 5
  rw [← reserved, Nat.mod_eq_of_lt hsmall] at hresponse
  constructor
  · intro hroom
    have hfits := length_withAck hcap hroom
    rw [if_neg (not_lt.mpr hroom)] at hresponse
    rw [acknowledge, hresponse]
    dsimp only
    have hpos : (Message.new.setBuffer (m.buf + m.length + reserved channel)
        m.bufferAvailable).buf - m.trimCapacity.2.buf = m.length + reserved channel := by
      change m.buf + m.length + _ - m.buf = _
      omega
    have hack : emptyAck (m.length + reserved channel) 0 0 mem =
        some (4, withAck channel m mem) := by
      rw [emptyAck, run_bind (writeRange_eq hfits)]
      rfl
    have hread : readRange (m.length + reserved channel) 4 (withAck channel m mem) =
        some (ackBytes, withAck channel m mem) := by
      rw [withAck]
      exact readRange_splice (s := ackBytes) hfits
    rw [hpos, run_bind hack, run_bind hread]
    rfl
  · intro hroom
    rw [if_pos (not_le.mp hroom)] at hresponse
    rw [acknowledge, hresponse]
    rfl

/-- A message whose event can be handled in its buffer. -/
def Contained (coap : CoAP) (channel : Channel) (m : Message) (mem : List UInt8) : Prop :=
  ∃ first, mem[0]? = some first ∧
    if coap.type first = .con ∧ channel.isUnreliable ∧ HasRoom channel m then
      channel.send (ack channel m) ackBytes ≠ .noError ∨
        ParseFits coap (withAck channel m mem) m.length
    else ParseFits coap mem m.length

/-- An acknowledgement is sent if it is asked for and there is room for it; if that fails, nothing
else is done. -/
theorem handleEvent_eq (callEventHandler : Bool) (s : Subscriptions) {m : Message} {first : UInt8}
    (hcap : m.capacity = mem.length) (hfirst : mem[0]? = some first) :
    handleEvent coap channel callEventHandler s m mem =
      if coap.type first = .con ∧ channel.isUnreliable ∧ HasRoom channel m then
        if channel.send (ack channel m) ackBytes ≠ .noError then
          some ((channel.send (ack channel m) ackBytes, []), withAck channel m mem)
        else parseEvent coap callEventHandler s m.length (withAck channel m mem)
      else parseEvent coap callEventHandler s m.length mem := by
  obtain ⟨hack, hnoack⟩ := acknowledge_eq channel hcap
  rw [handleEvent, run_bind (read_eq_some hfirst)]
  by_cases hcon : coap.type first = .con ∧ channel.isUnreliable
  · rw [if_pos hcon]
    by_cases hroom : HasRoom channel m
    · rw [run_bind (hack hroom), if_pos ⟨hcon.1, hcon.2, hroom⟩]
      dsimp only
      by_cases hsent : channel.send (ack channel m) ackBytes = .noError
      · rw [if_neg (not_not.mpr hsent), if_neg (not_not.mpr hsent)]
      · rw [if_pos hsent, if_pos hsent]
        rfl
    · rw [run_bind (hnoack hroom), if_neg fun hc ↦ hroom hc.2.2]
      rfl
  · rw [if_neg hcon, run_bind (run_pure _), if_neg fun hc ↦ hcon ⟨hc.1, hc.2.1⟩]
    rfl

theorem contained_iff {m : Message} {first : UInt8} (hfirst : mem[0]? = some first) :
    Contained coap channel m mem ↔
      if coap.type first = .con ∧ channel.isUnreliable ∧ HasRoom channel m then
        channel.send (ack channel m) ackBytes ≠ .noError ∨
          ParseFits coap (withAck channel m mem) m.length
      else ParseFits coap mem m.length := by
  constructor
  · rintro ⟨b, hb, h⟩
    rw [hfirst] at hb
    cases hb
    exact h
  · exact fun h ↦ ⟨first, hfirst, h⟩

/-- **Handling an event stays in the buffer** of its message if and only if the options of the
message, and the ends of its strings, lie in that buffer. -/
theorem handleEvent_isSome_iff (hrfc : FollowsRfc coap) (channel : Channel)
    (callEventHandler : Bool) (s : Subscriptions) (m : Message) (mem : List UInt8)
    (hcap : m.capacity = mem.length) :
    (handleEvent coap channel callEventHandler s m mem).isSome ↔
      Contained coap channel m mem := by
  rcases hfirst : mem[0]? with _ | first
  · have hfail : Bytes.read 0 mem = none := read_eq_none (List.getElem?_eq_none_iff.mp hfirst)
    rw [handleEvent, run_bind_none hfail]
    apply iff_of_false Bool.false_ne_true
    rintro ⟨b, hb, -⟩
    rw [hfirst] at hb
    cases hb
  have hlength : m.length ≤ mem.length := hcap ▸ m.length_le
  rw [contained_iff hfirst, handleEvent_eq callEventHandler s hcap hfirst]
  by_cases hack : coap.type first = .con ∧ channel.isUnreliable ∧ HasRoom channel m
  · rw [if_pos hack, if_pos hack]
    by_cases hsent : channel.send (ack channel m) ackBytes = .noError
    · have hlen : m.length ≤ (withAck channel m mem).length := by
        rw [withAck, length_splice (length_withAck hcap hack.2.2)]
        exact hlength
      rw [if_neg (not_not.mpr hsent), parseEvent_isSome_iff hrfc hlen,
        or_iff_right (not_not.mpr hsent)]
    · rw [if_pos hsent]
      exact iff_of_true rfl (.inl hsent)
  · rw [if_neg hack, if_neg hack]
    exact parseEvent_isSome_iff hrfc hlength _ _

/-- A channel that does not ask for acknowledgements. -/
def reliableChannel : Channel := ⟨false, .dtls, max_dtls_le, fun _ _ ↦ .noError⟩

/-- The event `a` with the payload `x`. -/
def eventBytes : List UInt8 := [0x50, 0x02, 0, 0, 0xb1, 69, 0x01, 97, 0xff, 120]

/-- A message of ten bytes in a buffer. -/
def tenBytes (capacity : ℕ) : Message := (Message.new.setBuffer 0 capacity).setLength 10

theorem handleEvent_isSome_iff_spareByte :
    (handleEvent .standard reliableChannel false .new (tenBytes 11) (eventBytes ++ [0])).isSome ↔
      Contained .standard reliableChannel (tenBytes 11) (eventBytes ++ [0]) :=
  handleEvent_isSome_iff followsRfc_standard reliableChannel false .new (tenBytes 11)
    (eventBytes ++ [0]) rfl

/-- Without a spare byte the end of the payload is written behind the buffer. -/
theorem handleEvent_leaves_buffer : FollowsRfc .standard ∧
    (tenBytes 10).capacity = eventBytes.length ∧ (tenBytes 10).length = 10 ∧
    handleEvent .standard reliableChannel false .new (tenBytes 10) eventBytes = none :=
  ⟨followsRfc_standard, rfl, rfl, by decide +kernel⟩

end DuoFirmware.Comm.Subscriptions
