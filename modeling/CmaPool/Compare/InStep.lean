import CmaPool.Compare.Forwarding
import CmaPool.Compare.Table

/-! The buffer tables of the two programs, kept in step by the forwarded lines. -/

namespace CmaPool.Compare

open Registry TestDrm Drm

/-- The arguments of a create: a size that the pool can hold, then words. -/
def CreateArgs : Option (List String) → Prop
  | some (size :: words) =>
      Python.IsDecimal size ∧
        (1 ≤ Python.decimalValue size.toList ∧ Python.decimalValue size.toList ≤ poolSize) ∧
        ∀ word ∈ words, ArgWord word
  | _ => False

/-- The arguments of a madv: one word. -/
def MadvArgs : Option (List String) → Prop
  | some [word] => ArgWord word
  | _ => False

structure ArgsOk (c : Python.Command) : Prop where
  create : c.cmd = "create" → CreateArgs c.args
  madv : c.cmd = "madv" → MadvArgs c.args
  others : c.cmd ≠ "create" → c.cmd ≠ "madv" → c.args = none

structure Forwardable (c : Python.Command) : Prop where
  args : ArgsOk c
  below : c.bufId < 2 ^ 32
  short : (forwarded c).length < 1024

/-- The word after the size does not begin with a NUL, where the line would end
for test-drm-mm. -/
def NoNulMark : Option (List String) → Prop
  | some (_ :: word :: _) => word.toList.head? ≠ some '\x00'
  | _ => True

instance : DecidablePred CreateArgs
  | some (_ :: _) => inferInstanceAs (Decidable (_ ∧ _))
  | some [] => isFalse id
  | none => isFalse id

instance : DecidablePred MadvArgs
  | some [word] => inferInstanceAs (Decidable (ArgWord word))
  | some (_ :: _ :: _) => isFalse id
  | some [] => isFalse id
  | none => isFalse id

instance : DecidablePred NoNulMark
  | some (_ :: word :: _) => inferInstanceAs (Decidable (word.toList.head? ≠ some '\x00'))
  | some [_] => isTrue trivial
  | some [] => isTrue trivial
  | none => isTrue trivial

instance (c : Python.Command) : Decidable (ArgsOk c) :=
  decidable_of_iff ((c.cmd = "create" → CreateArgs c.args) ∧ (c.cmd = "madv" → MadvArgs c.args) ∧
    (c.cmd ≠ "create" → c.cmd ≠ "madv" → c.args = none))
    ⟨fun ⟨hcreate, hmadv, hothers⟩ => ⟨hcreate, hmadv, hothers⟩,
      fun h => ⟨h.create, h.madv, h.others⟩⟩

instance (c : Python.Command) : Decidable (Forwardable c) :=
  decidable_of_iff (ArgsOk c ∧ c.bufId < 2 ^ 32 ∧ (forwarded c).length < 1024)
    ⟨fun ⟨hargs, hbelow, hshort⟩ => ⟨hargs, hbelow, hshort⟩,
      fun h => ⟨h.args, h.below, h.short⟩⟩

def nameOf (bufId : Int) : Nat := bufId.toNat % 2 ^ 32

/-- `g` shows as much of a record as the commands need. -/
def Visible {γ : Type} (g : Entry → γ) : Prop := ∀ q, ∃ shown, Observed g (requestChange q) shown

theorem visible_id : Visible id := fun _ => ⟨_, observed_id _⟩

section Step

variable {γ : Type} {g : Entry → γ} {c : Python.Command} {s s' : Python.Pool} {data : Data}
  {q : Python.Request}

/-- The forwarded line carries the request that the Python pool accepted, as far as
`g` shows it. -/
structure Carries (g : Entry → γ) (c : Python.Command) (q : Python.Request) (t : Command) :
    Prop where
  line : lineCommand (forwarded c) = some t
  name : t.name = nameOf c.bufId
  change : ∃ shown, Observed g (commandChange t) shown ∧ Observed g (requestChange q) shown
  plain : Plain t
  size : t.verb = .create → ∃ size argsOffset,
    scanSize t.args = some (size, argsOffset) ∧ size ≠ 0 ∧ size ≤ poolSize

/-- Whatever a pool makes of the command, its line carries it. -/
def Carried (g : Entry → γ) (c : Python.Command) : Prop :=
  ∀ s s' q, Python.Packing s → Python.Accepts s c q → Python.Step s c q (.ok ⟨⟩ s') →
    ∃ t, Carries g c q t ∧ (t.verb = .create → s.buffers.lookup c.bufId = none)

/-- The word of a verb in `Pool.COMMANDS`. -/
def wordOf : Verb → String
  | .destroy => "destroy"
  | .addUsecnt => "add_usecnt"
  | .removeUsecnt => "remove_usecnt"
  | .create => "create"
  | .use => "use"
  | .madv => "madv"

theorem wordOf_known (verb : Verb) :
    PlainWord (wordOf verb) ∧ verbs.lookup (text (wordOf verb)) = some verb := by
  cases verb <;> decide +kernel

theorem lineCommand_word (verb : Verb) (hcmd : c.cmd = wordOf verb) (hid : 0 ≤ c.bufId)
    (hsmall : c.bufId < 2 ^ 64) :
    lineCommand (forwarded c) =
      some ⟨verb, nameOf c.bufId, skipSpaces (cString (argsTail c))⟩ := by
  rcases Int.eq_ofNat_of_zero_le hid with ⟨id, hnat⟩
  rcases wordOf_known verb with ⟨hword, hverb⟩
  rw [lineCommand_forwarded hnat (hcmd ▸ hword) (by omega), hcmd, hverb, nameOf, hnat]
  rfl

/-- A command whose handler reads no size. -/
theorem carries_plain (hvisible : Visible g) (verb : Verb) (hcmd : c.cmd = wordOf verb)
    (hargs : verb ≠ .madv → c.args = none) (hid : 0 ≤ c.bufId) (hsmall : c.bufId < 2 ^ 64)
    (hcreate : verb ≠ .create)
    (hchange : ∀ t : Command, t.verb = verb → commandChange t = requestChange q) :
    ∃ t, Carries g c q t ∧ t.verb ≠ .create := by
  obtain ⟨shown, hshown⟩ := hvisible q
  refine ⟨_, ⟨lineCommand_word verb hcmd hid hsmall, rfl, ⟨shown, ?_, hshown⟩, ?_, ?_⟩, hcreate⟩
  · rw [hchange _ rfl]
    exact hshown
  · cases verb with
    | create => exact absurd rfl hcreate
    | madv => exact trivial
    | _ => exact argsTail_none (hargs (by decide))
  · exact fun h => absurd h hcreate

/-- The commands other than create are read whatever their arguments are. -/
theorem accepts_carries (hvisible : Visible g) (haccepts : Python.Accepts s c q)
    (hid : 0 ≤ c.bufId) (hsmall : c.bufId < 2 ^ 64)
    (hcreate : ∀ size arg rest, c.cmd = "create" → c.args = some (arg :: rest) →
      Python.int arg = some size → q = .create size (rest.length > 0) → ∃ t, Carries g c q t) :
    ∃ t, Carries g c q t ∧ (t.verb = .create → s.buffers.lookup c.bufId = none) := by
  have hplain : (∃ t, Carries g c q t ∧ t.verb ≠ .create) →
      ∃ t, Carries g c q t ∧ (t.verb = .create → s.buffers.lookup c.bufId = none) :=
    fun ⟨t, ht, hverb⟩ => ⟨t, ht, fun h => absurd h hverb⟩
  cases haccepts with
  | destroy hcmd hnone _ =>
      apply hplain
      apply carries_plain hvisible .destroy hcmd (fun _ => hnone) hid hsmall (by decide)
      intro t ht
      simp [commandChange, requestChange, ht]
  | addUsecnt hcmd hnone _ _ =>
      apply hplain
      apply carries_plain hvisible .addUsecnt hcmd (fun _ => hnone) hid hsmall (by decide)
      intro t ht
      simp [commandChange, requestChange, ht]
  | removeUsecnt hcmd hnone _ _ =>
      apply hplain
      apply carries_plain hvisible .removeUsecnt hcmd (fun _ => hnone) hid hsmall (by decide)
      intro t ht
      simp [commandChange, requestChange, ht]
  | create hcmd hnew hsome hint =>
      obtain ⟨t, ht⟩ := hcreate _ _ _ hcmd hsome hint rfl
      exact ⟨t, ht, fun _ => hnew⟩
  | use hcmd hnone _ _ =>
      apply hplain
      apply carries_plain hvisible .use hcmd (fun _ => hnone) hid hsmall (by decide)
      intro t ht
      simp [commandChange, requestChange, ht]
  | madv hcmd _ _ =>
      apply hplain
      apply carries_plain hvisible .madv hcmd (fun h => absurd rfl h) hid hsmall (by decide)
      intro t ht
      simp [commandChange, requestChange, ht]

theorem carries_create {size : Int} {arg : String} {rest : List String}
    (hcmd : c.cmd = "create") (hsome : c.args = some (arg :: rest))
    (hint : Python.int arg = some size) (hargs : ArgsOk c) (hmark : NoNulMark c.args)
    (hid : 0 ≤ c.bufId) (hsmall : c.bufId < 2 ^ 64) :
    ∃ t, Carries id c (.create size (rest.length > 0)) t := by
  have hcreate := hargs.create hcmd
  rw [hsome] at hcreate hmark
  rcases hcreate with ⟨hdecimal, ⟨hpos, hpool⟩, hwords⟩
  obtain rfl := Python.int_decimal hdecimal hint
  have hnul : ∀ word ∈ rest.head?, word.toList.head? ≠ some '\x00' := by
    intro word hword
    rcases List.head?_eq_some_iff.mp hword with ⟨words, hrest⟩
    rw [hrest] at hmark
    exact hmark
  have hpoolSize : poolSize < 2 ^ 64 := by decide
  rcases argsTail_create hsome hdecimal hwords hnul (by omega) with ⟨argsOffset, hscan, hmark⟩
  refine ⟨_, lineCommand_word .create hcmd hid hsmall, rfl, ⟨_, observed_id _, ?_⟩, ?_, ?_⟩
  · have hchange : ∀ t : Command, t.verb = .create →
        t.args = skipSpaces (cString (argsTail c)) →
        commandChange t = requestChange (.create (Python.decimalValue arg.toList)
          (rest.length > 0)) := by
      intro t hverb htext
      simp only [commandChange, requestChange, hverb, htext, hscan, Option.map_some]
      simp only [createdBuffer, Data.newBuffer, drmEntry, htext, hmark]
      rfl
    rw [hchange _ rfl rfl]
    exact observed_id _
  · simp [Plain, hscan]
  · exact fun _ => ⟨_, _, hscan, by omega, hpool⟩

theorem ArgsOk.carried (hargs : ArgsOk c) (hmark : NoNulMark c.args) (hid : 0 ≤ c.bufId)
    (hsmall : c.bufId < 2 ^ 64) : Carried id c := by
  intro s s' q _ haccepts _
  apply accepts_carries visible_id haccepts hid hsmall
  intro size arg rest hcmd hsome hint hq
  rw [hq]
  exact carries_create hcmd hsome hint hargs hmark hid hsmall

theorem ArgsOk.sizeOk (hargs : ArgsOk c) : c.SizeOk := by
  apply Python.Command.sizeOk_of_decimal
  intro arg words hcmd hsome
  have hcreate := hargs.create hcmd
  rw [hsome] at hcreate
  exact hcreate.1

variable {keys : Set Int}

/-- One forwarded line keeps what `g` shows of the tables in step. -/
theorem forwarded_step (hs : Sound data) (hpacking : Python.Packing s)
    (hrenamed : Renamed nameOf keys (observe g (pyTable s)) (observe g (drmTable data)))
    (hinj : Set.InjOn nameOf keys) (hkey : c.bufId ∈ keys) (hcarried : Carried g c)
    (hrun : Python.processCommand c s = .ok ⟨⟩ s') :
    ∃ data', data.processLine (forwarded c) = .ok data' ∧
      Renamed nameOf keys (observe g (pyTable s')) (observe g (drmTable data')) := by
  have houtcome := Python.processCommand_outcome hpacking.linked c
  rw [hrun] at houtcome
  rcases houtcome with ⟨q, haccepts, hstep⟩ | ⟨_, e, herror⟩
  · rcases hcarried s s' q hpacking haccepts hstep with ⟨t, ht, hnew⟩
    have hfresh : t.verb = .create → data.findBuffer t.name = none := by
      intro hverb
      rw [ht.name, ← drmTable_none, ← observe_none, hrenamed.record _ hkey, observe_none, pyTable,
        hnew hverb]
      rfl
    have hgood : ¬ BadCreate data t := by
      rintro ⟨hverb, _, size, argsOffset, hscan, hrange⟩
      rcases ht.size hverb with ⟨size', argsOffset', hscan', hne, hle⟩
      rw [hscan] at hscan'
      cases hscan'
      omega
    rcases processLine_step hs (forwarded c) with ⟨t', hline, hdrm⟩ | ⟨hnone, _⟩
    · rw [ht.line] at hline
      cases hline
      rcases hdrm.aborts_or hs with ⟨hbad, _⟩ | ⟨_, data', hok⟩
      · exact absurd hbad hgood
      · rw [hok] at hdrm
        refine ⟨data', hok, ?_⟩
        obtain ⟨shown, hdrmShown, hpyShown⟩ := ht.change
        have hpython := pyTable_step hpacking.linked haccepts hstep
        have htable := drmTable_step hs hdrm ht.plain hfresh
        rw [hpython, htable, observe_apply hpyShown, observe_apply hdrmShown, ht.name]
        exact hrenamed.apply hinj hkey
    · rw [ht.line] at hnone
      cases hnone
  · cases herror

end Step

/-- The table of test-drm-mm under the ids of the pool. -/
def SameTable (s : Python.Pool) (data : Data) : Prop :=
  ∀ bufId : Int, pyTable s bufId = if 0 ≤ bufId then drmTable data bufId.toNat else none

/-- Where the pool takes the history without an exception, the forwarded lines
leave test-drm-mm with the same buffers. -/
def KeepsStep (history : List Python.Command) : Prop :=
  ∀ s, Python.processCommands history (Python.Pool.new false) = .ok ⟨⟩ s →
    ∃ data, run (history.map forwarded) = .ok data ∧ SameTable s data

section Run

variable {γ : Type} {g : Entry → γ} {compact : Bool} {history : List Python.Command}
  {s : Python.Pool} {keys : Set Int}

theorem forwarded_renamed (hinj : Set.InjOn nameOf keys)
    (hrun : Python.processCommands history (Python.Pool.new compact) = .ok ⟨⟩ s)
    (hwire : ∀ c ∈ history, c.bufId ∈ keys ∧ c.SizeOk ∧ Carried g c) :
    ∃ data, run (history.map forwarded) = .ok data ∧
      Renamed nameOf keys (observe g (pyTable s)) (observe g (drmTable data)) := by
  revert hwire
  refine Python.processCommands_induction (P := fun history s =>
    (∀ c ∈ history, c.bufId ∈ keys ∧ c.SizeOk ∧ Carried g c) →
    Python.Packing s ∧ ∃ data, run (history.map forwarded) = .ok data ∧
      Renamed nameOf keys (observe g (pyTable s)) (observe g (drmTable data))) ?_ ?_ hrun |>
    fun h hwire => (h hwire).2
  · intro _
    rcases initData_sound with ⟨data, hinit, _, hempty⟩
    have htable : drmTable data = fun _ => none := by
      funext name
      rw [drmTable_none, findBuffer_none, hempty]
      simp
    refine ⟨Python.packing_new compact, data, ?_, ?_⟩
    · rw [List.map_nil, run, hinit]
      rfl
    · rw [htable]
      exact renamed_empty _ _
  · intro history s c s' ih hc hwire
    have hbefore : ∀ d ∈ history, _ := fun d hd => hwire d (List.mem_append_left _ hd)
    rcases ih hbefore with ⟨hpacking, data, hdata, hrenamed⟩
    rcases hwire c (by simp) with ⟨hkey, hsize, hcarried⟩
    rcases forwarded_step (run_sound hdata) hpacking hrenamed hinj hkey hcarried hc with
      ⟨data', hline, hrenamed'⟩
    refine ⟨?_, data'.nextLine, ?_, hrenamed'⟩
    · have hafter := Python.step_packing hpacking hsize
      rwa [Python.step, hc] at hafter
    · rw [List.map_append, List.map_singleton, run_concat hdata, hline]
      rfl

end Run

theorem nameOf_eq {bufId : Int} (hid : 0 ≤ bufId) (hbelow : bufId < 2 ^ 32) :
    nameOf bufId = bufId.toNat := by
  rw [nameOf]
  omega

theorem nameOf_injOn : Set.InjOn nameOf (Set.Ico 0 (2 ^ 32)) := by
  intro bufId hid bufId' hid' heq
  rw [nameOf_eq hid.1 hid.2, nameOf_eq hid'.1 hid'.2] at heq
  have hpos := hid.1
  have hpos' := hid'.1
  omega

theorem sameTable_of_renamed {s : Python.Pool} {data : Data}
    (h : Renamed nameOf (Set.Ico 0 (2 ^ 32)) (pyTable s) (drmTable data)) : SameTable s data := by
  intro bufId
  by_cases hkey : bufId ∈ Set.Ico (0 : Int) (2 ^ 32)
  · rw [if_pos hkey.1, ← nameOf_eq hkey.1 hkey.2]
    exact (h.record bufId hkey).symm
  · rw [h.inside bufId hkey]
    split
    · next hid =>
        symm
        apply h.onto
        rintro ⟨bufId', _, heq⟩
        have hlt : nameOf bufId' < 2 ^ 32 := Nat.mod_lt _ (by decide)
        exact hkey ⟨hid, by omega⟩
    · rfl

theorem forwarded_keepsStep {history : List Python.Command}
    (hwire : ∀ c ∈ history, Forwardable c ∧ 0 ≤ c.bufId ∧ NoNulMark c.args) : KeepsStep history := by
  intro s hrun
  have hready : ∀ c ∈ history, c.bufId ∈ Set.Ico 0 (2 ^ 32) ∧ c.SizeOk ∧ Carried id c := by
    intro c hc
    rcases hwire c hc with ⟨hforward, hid, hmark⟩
    have hbelow := hforward.below
    exact ⟨⟨hid, hbelow⟩, hforward.args.sizeOk, hforward.args.carried hmark hid (by omega)⟩
  rcases forwarded_renamed nameOf_injOn hrun hready with ⟨data, hdata, hrenamed⟩
  rw [observe_id, observe_id] at hrenamed
  exact ⟨data, hdata, sameTable_of_renamed hrenamed⟩

/-- The second create evicts the first buffer, whose id is used again later. -/
def reusingHistory : List Python.Command :=
  [⟨0, "create", 1, some ["100000000"]⟩, ⟨1, "create", 2, some ["100000000", "bo"]⟩,
    ⟨2, "add_usecnt", 1, none⟩, ⟨3, "madv", 2, some ["dontneed"]⟩, ⟨4, "destroy", 1, none⟩,
    ⟨5, "create", 1, some ["4096"]⟩, ⟨6, "add_usecnt", 2, none⟩]

theorem forwarded_keepsStep_evicting :
    ∃ s data, Python.processCommands reusingHistory (Python.Pool.new false) = .ok ⟨⟩ s ∧
      run (reusingHistory.map forwarded) = .ok data ∧ SameTable s data ∧
      s.buffers.map Prod.fst = [2, 1] ∧ data.allBuffers.map (fun p => (data.buf p).name) = [1, 2] ∧
      pyTable s 1 = some ⟨4096, false, false⟩ ∧ drmTable data 1 = some ⟨4096, false, false⟩ ∧
      pyTable s 2 = some ⟨100000000, true, true⟩ ∧
      drmTable data 2 = some ⟨100000000, true, true⟩ := by
  have hreturns : Python.raised
      (Python.processCommands reusingHistory (Python.Pool.new false)) = none := by decide +kernel
  have hids : (Python.run false reusingHistory).buffers.map Prod.fst = [2, 1] := by decide +kernel
  have hfirst : pyTable (Python.run false reusingHistory) 1 = some ⟨4096, false, false⟩ := by
    decide +kernel
  have hsecond : pyTable (Python.run false reusingHistory) 2 = some ⟨100000000, true, true⟩ := by
    decide +kernel
  have hnames : (run (reusingHistory.map forwarded)).toOption.map (fun data =>
      data.allBuffers.map fun p => (data.buf p).name) = some [1, 2] := by decide +kernel
  have hrun : Python.processCommands reusingHistory (Python.Pool.new false) =
      .ok ⟨⟩ (Python.run false reusingHistory) := Python.processCommands_eq reusingHistory hreturns
  obtain ⟨data, hdata, hsame⟩ := forwarded_keepsStep (by decide +kernel) _ hrun
  rw [hdata] at hnames
  have hsame₁ := hsame 1
  have hsame₂ := hsame 2
  rw [hfirst, if_pos (by decide)] at hsame₁
  rw [hsecond, if_pos (by decide)] at hsame₂
  exact ⟨_, data, hrun, hdata, hsame, hids, Option.some.inj hnames, hfirst, hsame₁.symm, hsecond,
    hsame₂.symm⟩

theorem not_keepsStep {history : List Python.Command} (bufId : Int) {entry : Option Entry}
    (hreturns : Python.raised (Python.processCommands history (Python.Pool.new false)) = none)
    (hpython : pyTable (Python.run false history) bufId ≠ entry)
    (hdrm : (run (history.map forwarded)).toOption.map (fun data =>
      if 0 ≤ bufId then drmTable data bufId.toNat else none) = some entry) :
    ¬ KeepsStep history := by
  intro hkeeps
  rcases hkeeps _ (Python.processCommands_eq history hreturns) with ⟨data, hdata, hsame⟩
  rw [hdata] at hdrm
  exact hpython ((hsame bufId).trans (Option.some.inj hdrm))

def nulWord : Python.Command := ⟨0, "create", 1, some ["4096", "\x00"]⟩

def negativeId : Python.Command := ⟨0, "create", -1, some ["4096"]⟩

theorem nulWord_forwardable : Forwardable nulWord :=
  ⟨by decide, by decide, by decide +kernel⟩

theorem negativeId_forwardable : Forwardable negativeId :=
  ⟨by decide, by decide, by decide +kernel⟩

/-- The line ends in front of a word that is a NUL, and the sign of an id is read
as a part of the number. -/
theorem forwarded_outOfStep :
    (∀ c ∈ [nulWord], Forwardable c) ∧ ¬ KeepsStep [nulWord] ∧
      (∀ c ∈ [negativeId], Forwardable c) ∧ ¬ KeepsStep [negativeId] := by
  have hnul : Python.raised (Python.processCommands [nulWord] (Python.Pool.new false)) = none ∧
      pyTable (Python.run false [nulWord]) 1 ≠ some ⟨4096, false, false⟩ ∧
      (run ([nulWord].map forwarded)).toOption.map (fun data =>
        if 0 ≤ (1 : Int) then drmTable data (1 : Int).toNat else none) =
        some (some ⟨4096, false, false⟩) := by
    decide +kernel
  have hsign : Python.raised (Python.processCommands [negativeId] (Python.Pool.new false)) = none ∧
      pyTable (Python.run false [negativeId]) (-1) ≠ none ∧
      (run ([negativeId].map forwarded)).toOption.map (fun data =>
        if 0 ≤ (-1 : Int) then drmTable data (-1 : Int).toNat else none) = some none := by
    decide +kernel
  refine ⟨?_, not_keepsStep 1 hnul.1 hnul.2.1 hnul.2.2, ?_,
    not_keepsStep (-1) hsign.1 hsign.2.1 hsign.2.2⟩
  · exact List.forall_mem_singleton.mpr nulWord_forwardable
  · exact List.forall_mem_singleton.mpr negativeId_forwardable

end CmaPool.Compare
