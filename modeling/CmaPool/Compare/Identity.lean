import CmaPool.Compare.InStep
import CmaPool.Compare.Process
import CmaPool.Python.LogLine

/-! The identity of a buffer on its way from the log to test-drm-mm. -/

namespace CmaPool.Compare

open Registry TestDrm Drm
open Python (logCommands matchLine addresses hexValue lowDigits highDigits)

/-- The lines that `process_file` reads for the command. -/
def pieces (c : Python.Command) : List Bytes := (readStream (forwarded c)).1

/-- A line for the command is read with this name, and no handler is given another. -/
structure AppliedTo (c : Python.Command) (name : Nat) : Prop where
  read : ∃ piece ∈ pieces c, lineAddress piece = some name
  handed : ∀ piece ∈ pieces c, ∀ t, lineCommand piece = some t → t.name = name

/-- Two live buffers of the pool are two live buffers of test-drm-mm. -/
def LiveApart (s : Python.Pool) (data : Data) : Prop :=
  ∀ id₁ id₂, (s.buffers.lookup id₁).isSome → (s.buffers.lookup id₂).isSome → id₁ ≠ id₂ →
    ∃ p₁ p₂, data.findBuffer (nameOf id₁) = some p₁ ∧ data.findBuffer (nameOf id₂) = some p₂ ∧
      p₁ ≠ p₂

structure IdentitySurvives (lines : List String) : Prop where
  names : ∀ c₁ ∈ logCommands lines, ∀ c₂ ∈ logCommands lines, ∃ name₁ name₂,
    AppliedTo c₁ name₁ ∧ AppliedTo c₂ name₂ ∧ (name₁ = name₂ ↔ c₁.bufId = c₂.bufId)
  live : ∀ compact history s, history <+: logCommands lines →
    Python.processCommands history (Python.Pool.new compact) = .ok ⟨⟩ s →
    ∃ data, processRun history = .ok data ∧ LiveApart s data

/-- A first argument that is a decimal number above zero. -/
def PositiveSize : Option (List String) → Prop
  | some (size :: _) => Python.IsDecimal size ∧ 0 < Python.decimalValue size.toList
  | _ => True

instance : DecidablePred PositiveSize
  | some (_ :: _) => inferInstanceAs (Decidable (_ ∧ _))
  | some [] => isTrue trivial
  | none => isTrue trivial

/-- The line fits into the buffer of `process_file`, and test-drm-mm reads the size
of a create as the Python program does. -/
structure Deliverable (c : Python.Command) : Prop where
  short : (forwarded c).length < Data.lineSize
  size : c.cmd = "create" → PositiveSize c.args

instance (c : Python.Command) : Decidable (Deliverable c) :=
  decidable_of_iff ((forwarded c).length < Data.lineSize ∧ (c.cmd = "create" → PositiveSize c.args))
    ⟨fun ⟨hshort, hsize⟩ => ⟨hshort, hsize⟩, fun h => ⟨h.short, h.size⟩⟩

/-- Two addresses of the log that have the last eight digits in common have the
same number above them. -/
def LowDigitsTell (lines : List String) : Prop :=
  ∀ address₁ ∈ addresses lines, ∀ address₂ ∈ addresses lines,
    lowDigits address₁ = lowDigits address₂ →
      hexValue (highDigits address₁) = hexValue (highDigits address₂)

instance (lines : List String) : Decidable (LowDigitsTell lines) :=
  inferInstanceAs (Decidable (∀ address₁ ∈ addresses lines, ∀ address₂ ∈ addresses lines,
    lowDigits address₁ = lowDigits address₂ →
      hexValue (highDigits address₁) = hexValue (highDigits address₂)))

section Log

variable {lines : List String} {c : Python.Command}

theorem mem_addresses {address : List Char} :
    address ∈ addresses lines ↔ ∃ line ∈ lines, ∃ md, matchLine line = some md ∧
      md.address = address := by
  rw [addresses, List.mem_filterMap]
  simp only [Option.map_eq_some_iff]

theorem address_hex {address : List Char} (h : address ∈ addresses lines) :
    (∀ ch ∈ address, Python.isHexChar ch = true) ∧ 8 ≤ address.length ∧ address.length ≤ 16 := by
  rcases mem_addresses.mp h with ⟨line, _, md, hmd, rfl⟩
  exact (Python.matchLine_some hmd).2

theorem logCommand_cases (h : c ∈ logCommands lines) :
    PlainWord c.cmd ∧ ∃ address ∈ addresses lines, c.bufId = hexValue address := by
  rcases Python.mem_readCommands h with ⟨line, hline, md, first, hmd, rfl⟩
  refine ⟨?_, md.address, mem_addresses.mpr ⟨line, hline, md, hmd, rfl⟩, rfl⟩
  intro ch hch
  have hmem : ch ∈ md.cmd := by simpa [Python.LineMatch.command] using hch
  have hword := (Python.matchLine_some hmd).1 ch hmem
  have hlower : ch.isLower = true → 97 ≤ ch.toNat := by
    intro hlower
    simp only [Char.isLower, Bool.and_eq_true, decide_eq_true_eq, ge_iff_le,
      UInt32.le_iff_toNat_le] at hlower
    exact hlower.1
  rw [Python.isWordChar, Bool.or_eq_true, decide_eq_true_eq] at hword
  rcases hword with hletter | rfl
  · have := hlower hletter
    omega
  · decide

/-- What a line is matched to goes to test-drm-mm as one line. -/
theorem matched_sendable {line : String} {md : Python.LineMatch} {first : Int}
    (hmd : matchLine line = some md)
    (hshort : (forwarded (md.command first)).length < Data.lineSize) :
    Sendable (md.command first) where
  cmd := by
    intro hmem
    rw [Python.LineMatch.command, String.toList_ofList] at hmem
    exact absurd ((Python.matchLine_some hmd).1 _ hmem) (by decide)
  args := by
    intro word hword hmem
    cases hargs : md.args with
    | none => simp [Python.LineMatch.command, hargs] at hword
    | some args =>
        have hsplit : word ∈ Python.splitArgs args := by
          simpa [Python.LineMatch.command, hargs] using hword
        exact Python.matchLine_args hmd hargs (Python.mem_of_mem_splitArgs hsplit hmem)
  short := hshort

theorem address_value_lt {address : List Char} (h : address ∈ addresses lines) :
    hexValue address < 2 ^ 64 := by
  rcases address_hex h with ⟨hhex, _, hlong⟩
  calc
    hexValue address < 16 ^ address.length := Python.hexValue_lt hhex
    _ ≤ 16 ^ 16 := Nat.pow_le_pow_right (by decide) hlong
    _ = 2 ^ 64 := by decide

theorem lowDigits_spec {address : List Char} (h : address ∈ addresses lines) :
    (lowDigits address).length = 8 ∧ (∀ ch ∈ lowDigits address, Python.isHexChar ch = true) ∧
      hexValue (lowDigits address) < 2 ^ 32 := by
  rcases address_hex h with ⟨hhex, hshort, _⟩
  have hlength : (lowDigits address).length = 8 := by
    rw [lowDigits, List.length_drop]
    omega
  have hlow : ∀ ch ∈ lowDigits address, Python.isHexChar ch = true :=
    fun ch hch => hhex ch (List.mem_of_mem_drop hch)
  refine ⟨hlength, hlow, ?_⟩
  have hlt := Python.hexValue_lt hlow
  rwa [hlength] at hlt

theorem address_mod {address : List Char} (h : address ∈ addresses lines) :
    hexValue address % 2 ^ 32 = hexValue (lowDigits address) := by
  have hsplit := Python.hexValue_split (address_hex h).2.1
  have hlow := (lowDigits_spec h).2.2
  omega

/-- The condition on the digits, for the numbers. -/
theorem lowDigitsTell_iff :
    LowDigitsTell lines ↔ ∀ address₁ ∈ addresses lines, ∀ address₂ ∈ addresses lines,
      hexValue address₁ % 2 ^ 32 = hexValue address₂ % 2 ^ 32 →
        hexValue address₁ = hexValue address₂ := by
  have hequal : ∀ address₁ ∈ addresses lines, ∀ address₂ ∈ addresses lines,
      (lowDigits address₁ = lowDigits address₂ ↔
        hexValue address₁ % 2 ^ 32 = hexValue address₂ % 2 ^ 32) := by
    intro address₁ h₁ address₂ h₂
    rw [address_mod h₁, address_mod h₂]
    constructor
    · exact fun heq => congrArg hexValue heq
    · intro heq
      rcases lowDigits_spec h₁ with ⟨hlength₁, hhex₁, _⟩
      rcases lowDigits_spec h₂ with ⟨hlength₂, hhex₂, _⟩
      exact Python.hexValue_inj (hlength₁.trans hlength₂.symm) hhex₁ hhex₂ heq
  constructor
  · intro htell address₁ h₁ address₂ h₂ hmod
    have hlow := (hequal _ h₁ _ h₂).mpr hmod
    have hhigh := htell _ h₁ _ h₂ hlow
    rw [Python.hexValue_split (address_hex h₁).2.1, Python.hexValue_split (address_hex h₂).2.1,
      hlow, hhigh]
  · intro htell address₁ h₁ address₂ h₂ hlow
    have hvalue := htell _ h₁ _ h₂ ((hequal _ h₁ _ h₂).mp hlow)
    have hsplit₁ := Python.hexValue_split (address_hex h₁).2.1
    have hsplit₂ := Python.hexValue_split (address_hex h₂).2.1
    rw [hlow] at hsplit₁
    omega

theorem logCommand_sendable (h : c ∈ logCommands lines)
    (hshort : (forwarded c).length < Data.lineSize) : Sendable c := by
  obtain ⟨line, _, md, first, hmd, rfl⟩ := Python.mem_readCommands h
  exact matched_sendable hmd hshort

theorem logCommand_range (h : c ∈ logCommands lines) : 0 ≤ c.bufId ∧ c.bufId < 2 ^ 64 := by
  obtain ⟨_, address, haddress, hid⟩ := logCommand_cases h
  have hlt := address_value_lt haddress
  omega

theorem lineAddress_logCommand (h : c ∈ logCommands lines) :
    lineAddress (forwarded c) = some (nameOf c.bufId) := by
  obtain ⟨hword, address, haddress, hid⟩ := logCommand_cases h
  rw [lineAddress_forwarded hid hword (address_value_lt haddress), nameOf, hid]
  rfl

theorem pieces_sendable (hsend : Sendable c) : pieces c = [forwarded c] := by
  have hfirst := fgets_line hsend.isLine hsend.short []
  rw [List.append_nil] at hfirst
  rw [pieces, readStream_cons hfirst]
  rfl

theorem appliedTo_iff (h : c ∈ logCommands lines) (hshort : (forwarded c).length < Data.lineSize)
    {name : Nat} : AppliedTo c name ↔ name = nameOf c.bufId := by
  have hread := lineAddress_logCommand h
  have hpieces := pieces_sendable (logCommand_sendable h hshort)
  constructor
  · intro happlied
    obtain ⟨piece, hpiece, hname⟩ := happlied.read
    rw [hpieces, List.mem_singleton] at hpiece
    rw [hpiece, hread] at hname
    exact (Option.some.inj hname).symm
  · rintro rfl
    refine ⟨⟨forwarded c, by rw [hpieces]; exact List.mem_singleton_self _, hread⟩, ?_⟩
    intro piece hpiece t ht
    rw [hpieces, List.mem_singleton] at hpiece
    have hname := lineAddress_of_command ht
    rw [hpiece, hread] at hname
    exact (Option.some.inj hname).symm

theorem command_of_address {address : List Char} (h : address ∈ addresses lines) :
    ∃ c ∈ logCommands lines, c.bufId = hexValue address := by
  have hids : (logCommands lines).map Python.Command.bufId = _ :=
    Python.readCommands_bufId none lines
  have hmem : (hexValue address : Int) ∈ (logCommands lines).map Python.Command.bufId := by
    rw [hids]
    exact List.mem_map.mpr ⟨address, h, rfl⟩
  exact List.mem_map.mp hmem

/-- The ids of the log. -/
def logIds (lines : List String) : Set Int := {id | ∃ c ∈ logCommands lines, c.bufId = id}

theorem nameOf_injOn_iff : Set.InjOn nameOf (logIds lines) ↔ LowDigitsTell lines := by
  rw [lowDigitsTell_iff]
  constructor
  · intro hinj address₁ h₁ address₂ h₂ hmod
    have heq : (hexValue address₁ : Int) = hexValue address₂ :=
      hinj (command_of_address h₁) (command_of_address h₂) hmod
    exact Int.ofNat.inj heq
  · rintro htell _ ⟨c₁, hc₁, rfl⟩ _ ⟨c₂, hc₂, rfl⟩ heq
    rcases (logCommand_cases hc₁).2 with ⟨address₁, h₁, hid₁⟩
    rcases (logCommand_cases hc₂).2 with ⟨address₂, h₂, hid₂⟩
    rw [hid₁, hid₂] at heq ⊢
    exact congrArg Int.ofNat (htell address₁ h₁ address₂ h₂ heq)

end Log

section Live

/-- That a buffer is there. -/
def present (_ : Entry) : Unit := ()

theorem visible_present : Visible present := by
  have hset : ∀ inUse, Observed present (setUsed inUse) id := by
    intro inUse entry
    rw [setUsed, Option.map_map]
    rfl
  intro q
  cases q with
  | destroy r => exact ⟨fun _ => none, fun _ => rfl⟩
  | addUsecnt r => exact ⟨id, hset true⟩
  | removeUsecnt r => exact ⟨id, hset false⟩
  | create size unmoveable => exact ⟨fun _ => some (), fun _ => rfl⟩
  | use r => exact ⟨id, fun _ => rfl⟩
  | madv r value => exact ⟨id, fun _ => rfl⟩

theorem Deliverable.sizeOk {c : Python.Command} (h : Deliverable c) : c.SizeOk := by
  apply Python.Command.sizeOk_of_decimal
  intro arg words hcmd hsome
  have hpositive := h.size hcmd
  rw [hsome] at hpositive
  exact hpositive.1

theorem Deliverable.carried {c : Python.Command} (h : Deliverable c) (hid : 0 ≤ c.bufId)
    (hsmall : c.bufId < 2 ^ 64) : Carried present c := by
  intro s s' q hpacking haccepts hstep
  apply accepts_carries visible_present haccepts hid hsmall
  intro size arg rest hcmd hsome hint hq
  have hpositive := h.size hcmd
  rw [hsome] at hpositive
  obtain ⟨hdecimal, hpos⟩ := hpositive
  obtain rfl := Python.int_decimal hdecimal hint
  rw [hq] at haccepts hstep
  have hle : Python.decimalValue arg.toList ≤ poolSize := by
    have hpool := hstep.create_size_le hpacking h.sizeOk haccepts
    exact Int.ofNat_le.mp hpool
  have hpoolSize : poolSize < 2 ^ 64 := by decide
  have hscan := argsTail_size hsome hdecimal (by omega)
  refine ⟨_, lineCommand_word .create hcmd hid hsmall, rfl, ⟨fun _ => some (), ?_, ?_⟩, ?_, ?_⟩
  · intro entry
    simp only [commandChange, hscan]
    rfl
  · rw [hq]
    exact fun _ => rfl
  · simp [Plain, hscan]
  · exact fun _ => ⟨_, _, hscan, by omega, hle⟩

theorem liveApart_of_renamed {s : Python.Pool} {data : Data} {keys : Set Int}
    (hinj : Set.InjOn nameOf keys)
    (h : Renamed nameOf keys (observe present (pyTable s)) (observe present (drmTable data))) :
    LiveApart s data := by
  have hlive : ∀ id, (s.buffers.lookup id).isSome → observe present (pyTable s) id ≠ none := by
    intro id hsome hnone
    rw [observe_none, pyTable, Option.map_eq_none_iff] at hnone
    simp [hnone] at hsome
  have hfound : ∀ id, observe present (pyTable s) id ≠ none →
      ∃ p, data.findBuffer (nameOf id) = some p := by
    intro id hid
    have hkey : id ∈ keys := by
      by_contra hout
      exact hid (h.inside id hout)
    apply Option.ne_none_iff_exists'.mp
    rwa [ne_eq, ← drmTable_none, ← observe_none, h.record id hkey]
  intro id₁ id₂ h₁ h₂ hne
  rcases hfound id₁ (hlive id₁ h₁) with ⟨p₁, hp₁⟩
  rcases hfound id₂ (hlive id₂ h₂) with ⟨p₂, hp₂⟩
  refine ⟨p₁, p₂, hp₁, hp₂, ?_⟩
  intro heq
  apply h.ne hinj (hlive id₁ h₁) (hlive id₂ h₂) hne
  rw [← (findBuffer_some hp₁).2, ← (findBuffer_some hp₂).2, heq]

/-- Two live buffers stay apart when the names tell the ids of the history apart. -/
theorem processRun_liveApart {compact : Bool} {history : List Python.Command} {s : Python.Pool}
    {keys : Set Int} (hinj : Set.InjOn nameOf keys)
    (hwire : ∀ c ∈ history, Sendable c ∧ Deliverable c ∧ c.bufId ∈ keys ∧ 0 ≤ c.bufId ∧
      c.bufId < 2 ^ 64)
    (hrun : Python.processCommands history (Python.Pool.new compact) = .ok ⟨⟩ s) :
    ∃ data, processRun history = .ok data ∧ LiveApart s data := by
  have hcarried : ∀ c ∈ history, c.bufId ∈ keys ∧ c.SizeOk ∧ Carried present c := by
    intro c hc
    obtain ⟨_, hdeliverable, hkey, hid, hsmall⟩ := hwire c hc
    exact ⟨hkey, hdeliverable.sizeOk, hdeliverable.carried hid hsmall⟩
  obtain ⟨data, hdata, hrenamed⟩ := forwarded_renamed hinj hrun hcarried
  refine ⟨data, ?_, liveApart_of_renamed hinj hrenamed⟩
  rw [processRun_sendable fun c hc => (hwire c hc).1]
  exact hdata

end Live

theorem IdentitySurvives.lowDigitsTell {lines : List String} (h : IdentitySurvives lines)
    (hshort : ∀ c ∈ logCommands lines, (forwarded c).length < Data.lineSize) :
    LowDigitsTell lines := by
  rw [← nameOf_injOn_iff]
  rintro _ ⟨c₁, hc₁, rfl⟩ _ ⟨c₂, hc₂, rfl⟩ heq
  obtain ⟨name₁, name₂, happlied₁, happlied₂, hiff⟩ := h.names c₁ hc₁ c₂ hc₂
  apply hiff.mp
  calc
    name₁ = nameOf c₁.bufId := (appliedTo_iff hc₁ (hshort c₁ hc₁)).mp happlied₁
    _ = nameOf c₂.bufId := heq
    _ = name₂ := ((appliedTo_iff hc₂ (hshort c₂ hc₂)).mp happlied₂).symm

/-- The names of a log survive the pipe exactly when the last eight digits tell
its addresses apart. -/
theorem identitySurvives_iff {lines : List String}
    (hlines : ∀ c ∈ logCommands lines, Deliverable c) :
    IdentitySurvives lines ↔ LowDigitsTell lines := by
  have hshort : ∀ c ∈ logCommands lines, (forwarded c).length < Data.lineSize :=
    fun c hc => (hlines c hc).short
  refine ⟨fun h => h.lowDigitsTell hshort, fun htell => ?_⟩
  have hinj := nameOf_injOn_iff.mpr htell
  constructor
  · intro c₁ hc₁ c₂ hc₂
    have happlied : ∀ c ∈ logCommands lines, AppliedTo c (nameOf c.bufId) :=
      fun c hc => (appliedTo_iff hc (hshort c hc)).mpr rfl
    refine ⟨_, _, happlied c₁ hc₁, happlied c₂ hc₂, ?_, congrArg nameOf⟩
    exact fun heq => hinj ⟨c₁, hc₁, rfl⟩ ⟨c₂, hc₂, rfl⟩ heq
  · intro compact history s hfront hrun
    apply processRun_liveApart hinj ?_ hrun
    intro c hc
    have hlog := hfront.subset hc
    exact ⟨logCommand_sendable hlog (hshort c hlog), hlines c hlog, ⟨c, hlog, rfl⟩,
      logCommand_range hlog⟩

/-- The second create evicts the first buffer, whose id comes back with more digits
and is used again. -/
def evictingLog : List String :=
  ["[1.000000] @@@ create 00000001 100000000\n",
    "[1.000001] @@@ create 0000000100000002 100000000 bo\n",
    "[1.000002] @@@ madv 0000000100000002 dontneed now\n",
    "[1.000003] @@@ destroy 0000000000000001\n",
    "[1.000004] @@@ create 00000001 4096 \n"]

theorem identitySurvives_evicting :
    IdentitySurvives evictingLog ∧
      Python.raised (Python.processCommands (logCommands evictingLog) (Python.Pool.new false)) =
        none ∧
      (Python.run false (logCommands evictingLog)).buffers.map Prod.fst = [0x100000002, 1] ∧
      (processRun (logCommands evictingLog)).toOption.map (fun data =>
          data.allBuffers.map fun p => (data.buf p).name) = some [1, 2] :=
  ⟨(identitySurvives_iff (by decide +kernel)).mpr (by decide +kernel), by decide +kernel,
    by decide +kernel, by decide +kernel⟩

/-- Two addresses of sixteen digits with the same last eight. -/
def collidingLog : List String :=
  ["[1.000000] @@@ create 0000000100000000 4096\n",
    "[1.000001] @@@ create 0000000200000000 4096\n"]

/-- The second create is turned away. -/
theorem collidingLog_not_survives :
    ¬ IdentitySurvives collidingLog ∧
      (logCommands collidingLog).map Python.Command.bufId = [0x100000000, 0x200000000] ∧
      (processRun (logCommands collidingLog)).toOption.map (fun data =>
          (data.allBuffers, data.stderr)) =
        some ([0], text "line 2: creating buffer 00000000 but buffer already exists\n") := by
  refine ⟨fun hsurvives => ?_, by decide +kernel, by decide +kernel⟩
  exact absurd (hsurvives.lowDigitsTell (by decide +kernel)) (by decide +kernel)

end CmaPool.Compare
