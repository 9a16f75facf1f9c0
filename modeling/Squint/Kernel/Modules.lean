import Mathlib.Logic.Function.Basic
import Squint.Lib.Run

/-! Loading and unloading `squint_module` and `mockfs`: what their init and exit functions leave in
`/proc` and of the FIFO, whatever fails on the way. -/
namespace Squint.Kernel.Modules

open Squint.Lib

/-- Whose code the operations of a proc entry point to. -/
inductive Owner where
  | squint
  | mockfs
  | other
  deriving DecidableEq, Repr

def procName : String := "squint"

def procNameTrace : String := "MockFStrace"

def procNameNoTrace : String := "MockFSnotrace"

def enomem : Int := 12

/-- The proc entries by name; the buffer of `squint_dev`, if it has one; the number of the next
buffer; and the pointers handed to `kfree`, the last one first. -/
structure Resources where
  entries : String → Option Owner
  fifo : Option ℕ
  next : ℕ
  kfreed : List (Option ℕ)

/-- `NULL` (`false`) without memory and for a name that is taken. -/
def procCreate (memory : Bool) (name : String) (owner : Owner) (k : Resources) : Bool × Resources :=
  if memory = true ∧ k.entries name = none then
    (true, { k with entries := Function.update k.entries name (some owner) })
  else (false, k)

def removeProcEntry (name : String) (k : Resources) : Resources :=
  { k with entries := Function.update k.entries name none }

/-- Returns `ret`, which is 0 or an error; on an error `squint_dev` has no buffer. -/
def kfifoAlloc (ret : Int) (k : Resources) : Int × Resources :=
  if ret = 0 then (ret, { k with fifo := some k.next, next := k.next + 1 })
  else (ret, { k with fifo := none })

def kfifoFree (k : Resources) : Resources := { k with fifo := none, kfreed := k.fifo :: k.kfreed }

/-- `kfifo_squint_init`, with what `kfifo_alloc` returns and whether `proc_create` has memory. -/
def kfifoSquintInit (ret : Int) (memory : Bool) (k : Resources) : Int × Resources :=
  match kfifoAlloc ret k with
  | (ret, k) =>
    if ret ≠ 0 then (ret, k)
    else
      match procCreate memory procName .squint k with
      | (false, k) => (-enomem, kfifoFree k)
      | (true, k) => (0, k)

def kfifoSquintExit (k : Resources) : Resources := kfifoFree (removeProcEntry procName k)

/-- `mockfs_init`, with whether its first and its second `proc_create` have memory. -/
def mockfsInit (memTrace memNoTrace : Bool) (k : Resources) : Int × Resources :=
  match procCreate memTrace procNameTrace .mockfs k with
  | (false, k) => (-enomem, k)
  | (true, k) =>
    match procCreate memNoTrace procNameNoTrace .mockfs k with
    -- the entry made first stays
    | (false, k) => (-enomem, k)
    | (true, k) => (0, k)

def mockfsExit (k : Resources) : Resources :=
  removeProcEntry procNameNoTrace (removeProcEntry procNameTrace k)

/-- What the modules use of the kernel, and which of the two are loaded. -/
structure State extends Resources where
  squint : Bool
  mockfs : Bool

inductive Action where
  | loadSquint (ret : Int) (memory : Bool)
  | unloadSquint
  | loadMockfs (memTrace memNoTrace : Bool)
  | unloadMockfs
  deriving DecidableEq, Repr

def start (entries : String → Option Owner) : State := ⟨⟨entries, none, 0, []⟩, false, false⟩

/-- One attempt. `mockfs` uses a symbol of `squint_module`, so the kernel refuses to load the one
without the other and to unload the other under it; a refused attempt runs no code of the module.
A module whose init fails is discarded, and its exit function is not run. -/
def step (s : State) : Action → Option State
  | .loadSquint ret memory =>
    if s.squint = false then
      match kfifoSquintInit ret memory s.toResources with
      | (ret, k) => some ⟨k, ret = 0, s.mockfs⟩
    else some s
  | .unloadSquint =>
    if s.squint = true ∧ s.mockfs = false then
      some ⟨kfifoSquintExit s.toResources, false, s.mockfs⟩
    else some s
  | .loadMockfs memTrace memNoTrace =>
    if s.squint = true ∧ s.mockfs = false then
      match mockfsInit memTrace memNoTrace s.toResources with
      | (ret, k) => some ⟨k, s.squint, ret = 0⟩
    else some s
  | .unloadMockfs =>
    if s.mockfs = true then some ⟨mockfsExit s.toResources, s.squint, false⟩ else some s

/-! ### What an init function can do -/

theorem procCreate_cases (memory : Bool) (name : String) (owner : Owner) (k : Resources) :
    (memory = true ∧ k.entries name = none ∧ procCreate memory name owner k =
      (true, { k with entries := Function.update k.entries name (some owner) })) ∨
    (¬ (memory = true ∧ k.entries name = none) ∧ procCreate memory name owner k = (false, k)) := by
  unfold procCreate
  split_ifs with h
  · exact .inl ⟨h.1, h.2, rfl⟩
  · exact .inr ⟨h, rfl⟩

/-- The three ways through `kfifo_squint_init`. -/
inductive SquintInit (k : Resources) : Int → Resources → Prop
  | noBuffer {ret} (hret : ret ≠ 0) : SquintInit k ret { k with fifo := none }
  | noEntry : SquintInit k (-enomem)
      { k with fifo := none, next := k.next + 1, kfreed := some k.next :: k.kfreed }
  | done (hname : k.entries procName = none) : SquintInit k 0
      { k with
        entries := Function.update k.entries procName (some .squint)
        fifo := some k.next
        next := k.next + 1 }

theorem kfifoSquintInit_cases (ret : Int) (memory : Bool) (k : Resources) :
    SquintInit k (kfifoSquintInit ret memory k).1 (kfifoSquintInit ret memory k).2 := by
  by_cases hret : ret = 0
  · rcases procCreate_cases memory procName .squint
        { k with fifo := some k.next, next := k.next + 1 } with ⟨_, hname, h⟩ | ⟨_, h⟩
    · simp only [kfifoSquintInit, kfifoAlloc, hret, if_true, ne_eq, not_true_eq_false, if_false, h]
      exact .done hname
    · simp only [kfifoSquintInit, kfifoAlloc, hret, if_true, ne_eq, not_true_eq_false, if_false, h]
      exact .noEntry
  · simp only [kfifoSquintInit, kfifoAlloc, hret, if_false, ne_eq, not_false_eq_true, if_true]
    exact .noBuffer hret

def Halfway (k : Resources) (memTrace memNoTrace : Bool) : Prop :=
  (memTrace = true ∧ k.entries procNameTrace = none) ∧
    ¬ (memNoTrace = true ∧ k.entries procNameNoTrace = none)

instance (k : Resources) (memTrace memNoTrace : Bool) :
    Decidable (Halfway k memTrace memNoTrace) := by
  unfold Halfway
  infer_instance

/-- The three ways through `mockfs_init`. -/
inductive MockfsInit (k : Resources) (memTrace memNoTrace : Bool) : Int → Resources → Prop
  | noEntry (h : ¬ (memTrace = true ∧ k.entries procNameTrace = none)) :
      MockfsInit k memTrace memNoTrace (-enomem) k
  | halfway (h : Halfway k memTrace memNoTrace) : MockfsInit k memTrace memNoTrace (-enomem)
      { k with entries := Function.update k.entries procNameTrace (some .mockfs) }
  | done (htrace : k.entries procNameTrace = none)
      (h : memNoTrace = true ∧ k.entries procNameNoTrace = none) :
      MockfsInit k memTrace memNoTrace 0
        { k with
          entries := Function.update (Function.update k.entries procNameTrace (some .mockfs))
            procNameNoTrace (some .mockfs) }

theorem mockfsInit_cases (memTrace memNoTrace : Bool) (k : Resources) :
    MockfsInit k memTrace memNoTrace (mockfsInit memTrace memNoTrace k).1
      (mockfsInit memTrace memNoTrace k).2 := by
  rcases procCreate_cases memTrace procNameTrace .mockfs k with ⟨hmem, htrace, h⟩ | ⟨hfail, h⟩
  · rcases procCreate_cases memNoTrace procNameNoTrace .mockfs
        { k with entries := Function.update k.entries procNameTrace (some .mockfs) } with
      ⟨hmem', hname, h'⟩ | ⟨hfail, h'⟩
    · simp only [mockfsInit, h, h']
      exact .done htrace ⟨hmem', hname⟩
    · simp only [mockfsInit, h, h']
      exact .halfway ⟨⟨hmem, htrace⟩, hfail⟩
  · simp only [mockfsInit, h]
    exact .noEntry hfail

inductive Does (s : State) : Action → State → Prop
  | refused {a} (hload : ∀ memTrace memNoTrace, a = .loadMockfs memTrace memNoTrace →
      ¬ (s.squint = true ∧ s.mockfs = false)) : Does s a s
  | squintInit {ret memory ret' k} (hsq : s.squint = false)
      (hinit : SquintInit s.toResources ret' k) :
      Does s (.loadSquint ret memory) ⟨k, ret' = 0, s.mockfs⟩
  | squintExit (hsq : s.squint = true) (hmock : s.mockfs = false) :
      Does s .unloadSquint ⟨kfifoSquintExit s.toResources, false, s.mockfs⟩
  | mockfsInit {memTrace memNoTrace ret k} (hsq : s.squint = true) (hmock : s.mockfs = false)
      (hinit : MockfsInit s.toResources memTrace memNoTrace ret k) :
      Does s (.loadMockfs memTrace memNoTrace) ⟨k, s.squint, ret = 0⟩
  | mockfsExit (hmock : s.mockfs = true) :
      Does s .unloadMockfs ⟨mockfsExit s.toResources, s.squint, false⟩

theorem step_does {s t : State} {a : Action} (h : step s a = some t) : Does s a t := by
  cases a with
  | loadSquint ret memory =>
    simp only [step] at h
    split_ifs at h with hsq
    · obtain rfl := Option.some.inj h
      exact .squintInit hsq (kfifoSquintInit_cases ret memory s.toResources)
    · obtain rfl := Option.some.inj h
      exact .refused (by simp)
  | unloadSquint =>
    simp only [step] at h
    split_ifs at h with hsq
    · obtain rfl := Option.some.inj h
      exact .squintExit hsq.1 hsq.2
    · obtain rfl := Option.some.inj h
      exact .refused (by simp)
  | loadMockfs memTrace memNoTrace =>
    simp only [step] at h
    split_ifs at h with hsq
    · obtain rfl := Option.some.inj h
      exact .mockfsInit hsq.1 hsq.2 (mockfsInit_cases memTrace memNoTrace s.toResources)
    · obtain rfl := Option.some.inj h
      exact .refused fun _ _ _ => hsq
  | unloadMockfs =>
    simp only [step] at h
    split_ifs at h with hmock
    · obtain rfl := Option.some.inj h
      exact .mockfsExit hmock
    · obtain rfl := Option.some.inj h
      exact .refused (by simp)

/-! ### The FIFO -/

/-- `squint_dev` has a buffer exactly while the module is loaded, and `kfree` gets every buffer at
most once and never a null pointer. -/
structure FifoSound (s : State) : Prop where
  loaded : s.fifo.isSome = s.squint
  freed : ∀ p ∈ s.kfreed, ∃ b < s.next, p = some b
  live : ∀ b, s.fifo = some b → b < s.next ∧ some b ∉ s.kfreed
  once : s.kfreed.Nodup

theorem FifoSound.start (entries : String → Option Owner) : FifoSound (start entries) :=
  ⟨rfl, by simp [Modules.start], by simp [Modules.start], by simp [Modules.start]⟩

theorem FifoSound.next_notMem {s : State} (hs : FifoSound s) : some s.next ∉ s.kfreed := by
  intro hmem
  obtain ⟨b, hb, heq⟩ := hs.freed _ hmem
  have : s.next = b := Option.some.inj heq
  omega

theorem FifoSound.none_notMem {s : State} (hs : FifoSound s) : none ∉ s.kfreed := by
  intro hmem
  obtain ⟨b, _, heq⟩ := hs.freed _ hmem
  cases heq

theorem FifoSound.of_fifo_eq {s t : State} (hs : FifoSound s) (hfifo : t.fifo = s.fifo)
    (hnext : t.next = s.next) (hkfreed : t.kfreed = s.kfreed) (hsquint : t.squint = s.squint) :
    FifoSound t := by
  obtain ⟨hloaded, hfreed, hlive, honce⟩ := hs
  constructor
  · rw [hfifo, hsquint, hloaded]
  · rw [hkfreed, hnext]
    exact hfreed
  · rw [hfifo, hkfreed, hnext]
    exact hlive
  · rw [hkfreed]
    exact honce

theorem FifoSound.loadSquint {s : State} (hs : FifoSound s) {ret : Int} {k : Resources}
    (h : SquintInit s.toResources ret k) : FifoSound ⟨k, ret = 0, s.mockfs⟩ := by
  have hnew : ∀ p ∈ some s.next :: s.kfreed, ∃ b < s.next + 1, p = some b := by
    intro p hp
    rcases List.mem_cons.mp hp with rfl | hp
    · exact ⟨s.next, by omega, rfl⟩
    · obtain ⟨b, hb, rfl⟩ := hs.freed p hp
      exact ⟨b, by omega, rfl⟩
  cases h with
  | noBuffer hret => exact ⟨by simp [hret], hs.freed, by simp, hs.once⟩
  | noEntry =>
    exact ⟨by simp [enomem], hnew, by simp, List.nodup_cons.mpr ⟨hs.next_notMem, hs.once⟩⟩
  | done hname =>
    refine ⟨by simp, fun p hp => hnew p (by simp [hp]), fun b hb => ?_, hs.once⟩
    obtain rfl : s.next = b := Option.some.inj hb
    exact ⟨by simp, hs.next_notMem⟩

theorem FifoSound.unloadSquint {s : State} (hs : FifoSound s) (hsq : s.squint = true) :
    FifoSound ⟨kfifoSquintExit s.toResources, false, s.mockfs⟩ := by
  obtain ⟨b, hb⟩ : ∃ b, s.fifo = some b := by
    rw [← Option.isSome_iff_exists, hs.loaded, hsq]
  obtain ⟨hlt, hnot⟩ := hs.live b hb
  refine ⟨rfl, fun p hp => ?_, by simp [kfifoSquintExit, kfifoFree], ?_⟩
  · simp only [kfifoSquintExit, kfifoFree, removeProcEntry, List.mem_cons] at hp
    rcases hp with rfl | hp
    · exact ⟨b, hlt, hb⟩
    · exact hs.freed p hp
  · simp only [kfifoSquintExit, kfifoFree, removeProcEntry, hb]
    exact List.nodup_cons.mpr ⟨hnot, hs.once⟩

theorem FifoSound.step {s t : State} {a : Action} (hs : FifoSound s)
    (h : Modules.step s a = some t) : FifoSound t := by
  cases step_does h with
  | refused => exact hs
  | squintInit hsq hinit => exact hs.loadSquint hinit
  | squintExit hsq hmock => exact hs.unloadSquint hsq
  | mockfsInit hsq hmock hinit => cases hinit <;> exact hs.of_fifo_eq rfl rfl rfl rfl
  | mockfsExit hmock => exact hs.of_fifo_eq rfl rfl rfl rfl

/-! ### The proc entries -/

/-- An entry of a module is registered exactly while the module is loaded. -/
structure EntriesSound (s : State) : Prop where
  squint : ∀ n, s.entries n = some .squint ↔ n = procName ∧ s.squint = true
  mockfs : ∀ n, s.entries n = some .mockfs ↔
    (n = procNameTrace ∨ n = procNameNoTrace) ∧ s.mockfs = true

/-- What holds of the entries even after a load of `mockfs` that failed halfway. -/
structure EntriesOwned (s : State) : Prop where
  squint : ∀ n, s.entries n = some .squint ↔ n = procName ∧ s.squint = true
  mockfs : ∀ n, s.entries n = some .mockfs →
    n = procNameTrace ∨ n = procNameNoTrace ∧ s.mockfs = true
  loaded : s.mockfs = true → s.squint = true ∧ s.entries procNameTrace = some .mockfs ∧
    s.entries procNameNoTrace = some .mockfs

def NothingLeft (s : State) : Prop := s.entries procNameTrace = some .mockfs → s.mockfs = true

theorem EntriesOwned.sound_iff {s : State} (hs : EntriesOwned s) :
    EntriesSound s ↔ NothingLeft s := by
  constructor
  · intro h htrace
    exact ((h.mockfs _).mp htrace).2
  · intro h
    refine ⟨hs.squint, fun n => ⟨fun hn => ?_, fun ⟨hn, hmock⟩ => ?_⟩⟩
    · rcases hs.mockfs n hn with rfl | ⟨rfl, hmock⟩
      · exact ⟨.inl rfl, h hn⟩
      · exact ⟨.inr rfl, hmock⟩
    · obtain ⟨_, htrace, hno⟩ := hs.loaded hmock
      rcases hn with rfl | rfl
      · exact htrace
      · exact hno

theorem EntriesOwned.start {entries : String → Option Owner}
    (hentries : ∀ n o, entries n = some o → o = .other) : EntriesOwned (start entries) := by
  refine ⟨fun n => ?_, fun n hn => ?_, by simp [Modules.start]⟩
  · simp only [Modules.start, Bool.false_eq_true, and_false, iff_false]
    intro hn
    cases hentries n _ hn
  · cases hentries n _ hn

theorem EntriesOwned.loadSquint {s : State} (hs : EntriesOwned s) (hsq : s.squint = false)
    {ret : Int} {k : Resources} (h : SquintInit s.toResources ret k) :
    EntriesOwned ⟨k, ret = 0, s.mockfs⟩ := by
  obtain ⟨hsquint, hmockfs, hloaded⟩ := hs
  -- without `squint_module` there is no `mockfs`
  have hmock : s.mockfs = false := by
    by_contra hm
    have := (hloaded (by simpa using hm)).1
    simp [hsq] at this
  cases h with
  | noBuffer hret => exact ⟨by simpa [hret, hsq] using hsquint, hmockfs, by simp [hmock]⟩
  | noEntry => exact ⟨by simpa [enomem, hsq] using hsquint, hmockfs, by simp [hmock]⟩
  | done hname =>
    refine ⟨fun n => ?_, fun n hn => ?_, by simp [hmock]⟩
    · by_cases hn : n = procName
      · simp [hn]
      · simpa [hn, hsq] using hsquint n
    · by_cases hn' : n = procName
      · simp [hn'] at hn
      · exact hmockfs n (by simpa [hn'] using hn)

theorem EntriesOwned.unloadSquint {s : State} (hs : EntriesOwned s) (hmock : s.mockfs = false) :
    EntriesOwned ⟨kfifoSquintExit s.toResources, false, s.mockfs⟩ := by
  refine ⟨fun n => ?_, fun n hn => ?_, by simp [hmock]⟩
  · simp only [kfifoSquintExit, kfifoFree, removeProcEntry]
    by_cases hn : n = procName
    · simp [hn]
    · have := hs.squint n
      simpa [hn] using this
  · simp only [kfifoSquintExit, kfifoFree, removeProcEntry] at hn
    by_cases hn' : n = procName
    · simp [hn'] at hn
    · exact hs.mockfs n (by simpa [hn'] using hn)

theorem EntriesOwned.ne_squint {s : State} (hs : EntriesOwned s) {n : String}
    (hn : n = procNameTrace ∨ n = procNameNoTrace) : s.entries n ≠ some .squint := by
  intro h
  have hname := ((hs.squint n).mp h).1
  rcases hn with rfl | rfl
  · exact absurd hname (by decide)
  · exact absurd hname (by decide)

theorem update_eq_some_iff {e : String → Option Owner} {m n : String} {v : Option Owner}
    {o : Owner} (hm : e m ≠ some o) (hv : v ≠ some o) :
    Function.update e m v n = some o ↔ e n = some o := by
  by_cases hn : n = m
  · subst hn
    simp [hv, hm]
  · simp [hn]

theorem EntriesOwned.loadMockfs {s : State} (hs : EntriesOwned s) (hsq : s.squint = true)
    (hmock : s.mockfs = false) {memTrace memNoTrace : Bool} {ret : Int} {k : Resources}
    (h : MockfsInit s.toResources memTrace memNoTrace ret k) :
    EntriesOwned ⟨k, s.squint, ret = 0⟩ := by
  have htrace := hs.ne_squint (.inl rfl)
  have hno := hs.ne_squint (.inr rfl)
  have hmockfs : ∀ n, s.entries n = some .mockfs → n = procNameTrace := by
    intro n hn
    simpa [hmock] using hs.mockfs n hn
  have hne : procNameNoTrace ≠ procNameTrace := by decide
  cases h with
  | noEntry => exact ⟨hs.squint, fun n hn => .inl (hmockfs n hn), by simp [enomem]⟩
  | halfway =>
    refine ⟨fun n => ?_, fun n hn => .inl ?_, by simp [enomem]⟩
    · rw [update_eq_some_iff htrace (by simp), hs.squint]
    · by_contra hn'
      exact hn' (hmockfs n (by simpa [hn'] using hn))
  | done htrace' hno' =>
    refine ⟨fun n => ?_, fun n hn => ?_, fun _ => ⟨hsq, by simp [hne.symm], by simp⟩⟩
    · rw [update_eq_some_iff (by simpa [hne] using hno) (by simp),
        update_eq_some_iff htrace (by simp), hs.squint]
    · by_cases hn₁ : n = procNameTrace
      · exact .inl hn₁
      · by_cases hn₂ : n = procNameNoTrace
        · exact .inr ⟨hn₂, by simp⟩
        · exact .inl (hmockfs n (by simpa [hn₁, hn₂] using hn))

theorem EntriesOwned.unloadMockfs {s : State} (hs : EntriesOwned s) :
    EntriesOwned ⟨mockfsExit s.toResources, s.squint, false⟩ ∧
      (mockfsExit s.toResources).entries procNameTrace = none := by
  have htrace := hs.ne_squint (.inl rfl)
  have hno := hs.ne_squint (.inr rfl)
  have hne : procNameNoTrace ≠ procNameTrace := by decide
  simp only [mockfsExit, removeProcEntry]
  refine ⟨⟨fun n => ?_, fun n hn => ?_, by simp⟩, by simp [hne.symm]⟩
  · rw [update_eq_some_iff (by simpa [hne] using hno) (by simp),
      update_eq_some_iff htrace (by simp), hs.squint]
  · by_cases hn₁ : n = procNameTrace
    · exact .inl hn₁
    · by_cases hn₂ : n = procNameNoTrace
      · simp [hn₂] at hn
      · have := hs.mockfs n (by simpa [hn₁, hn₂] using hn)
        simp [hn₁, hn₂] at this

/-- A load of `mockfs` that gets to its init function does not stop between the two entries. -/
def NotHalfway (s : State) : Action → Prop
  | .loadMockfs memTrace memNoTrace =>
    s.squint = true ∧ s.mockfs = false → ¬ Halfway s.toResources memTrace memNoTrace
  | _ => True

instance (s : State) (a : Action) : Decidable (NotHalfway s a) := by
  cases a <;> unfold NotHalfway <;> infer_instance

/-- The entry of a load that stopped halfway is there for good: as long as it is, every load of
`mockfs` finds the name taken. -/
theorem nothingLeft_loadMockfs {s : State} {memTrace memNoTrace : Bool} {ret : Int} {k : Resources}
    (hmock : s.mockfs = false) (h : MockfsInit s.toResources memTrace memNoTrace ret k) :
    NothingLeft ⟨k, s.squint, ret = 0⟩ ↔
      NothingLeft s ∧ ¬ Halfway s.toResources memTrace memNoTrace := by
  cases h with
  | noEntry h =>
    have : ¬ Halfway s.toResources memTrace memNoTrace := fun hhalf => h hhalf.1
    simp [NothingLeft, hmock, enomem, this]
  | halfway h => simp [NothingLeft, enomem, h]
  | done htrace h =>
    have : ¬ Halfway s.toResources memTrace memNoTrace := fun hhalf => hhalf.2 h
    simp [NothingLeft, htrace, this]

theorem EntriesOwned.step {s t : State} {a : Action} (hs : EntriesOwned s)
    (h : Modules.step s a = some t) :
    EntriesOwned t ∧ (NothingLeft t ↔ NothingLeft s ∧ NotHalfway s a) := by
  cases step_does h with
  | refused hload =>
    refine ⟨hs, ?_⟩
    cases a with
    | loadMockfs memTrace memNoTrace => simp [NotHalfway, hload memTrace memNoTrace rfl]
    | _ => simp [NotHalfway]
  | squintInit hsq hinit =>
    refine ⟨hs.loadSquint hsq hinit, ?_⟩
    have hne : procNameTrace ≠ procName := by decide
    cases hinit <;> simp [NotHalfway, NothingLeft, hne]
  | squintExit hsq hmock =>
    refine ⟨hs.unloadSquint hmock, ?_⟩
    have hne : procNameTrace ≠ procName := by decide
    simp [NotHalfway, NothingLeft, kfifoSquintExit, kfifoFree, removeProcEntry, hne]
  | mockfsInit hsq hmock hinit =>
    refine ⟨hs.loadMockfs hsq hmock hinit, ?_⟩
    rw [nothingLeft_loadMockfs hmock hinit]
    simp [NotHalfway, hsq, hmock]
  | mockfsExit hmock =>
    obtain ⟨howned, htrace⟩ := hs.unloadMockfs
    exact ⟨howned, by simp [NothingLeft, NotHalfway, htrace, hmock]⟩

/-! ### Whole runs -/

theorem SquintInit.error {k k' : Resources} {ret : Int} (h : SquintInit k ret k') (hret : ret ≠ 0) :
    k'.entries = k.entries ∧ k'.fifo = none := by
  cases h with
  | noBuffer => exact ⟨rfl, rfl⟩
  | noEntry => exact ⟨rfl, rfl⟩
  | done => exact absurd rfl hret

theorem MockfsInit.error {k k' : Resources} {memTrace memNoTrace : Bool} {ret : Int}
    (h : MockfsInit k memTrace memNoTrace ret k') (hret : ret ≠ 0) :
    k'.fifo = k.fifo ∧ (k'.entries = k.entries ↔ ¬ Halfway k memTrace memNoTrace) := by
  cases h with
  | noEntry h => exact ⟨rfl, by simp [Halfway, h]⟩
  | halfway h =>
    refine ⟨rfl, iff_of_false (fun heq => ?_) (not_not.mpr h)⟩
    have htrace := congrFun heq procNameTrace
    simp [h.1.2] at htrace
  | done => exact absurd rfl hret

/-- Over every run of attempts, whatever fails in it: the FIFO is always in order, and the entries
are exactly when no load of `mockfs` stops between its two. An init function that fails leaves
everything as it was, that one case apart. -/
theorem modules_sound_iff {entries : String → Option Owner}
    (hentries : ∀ n o, entries n = some o → o = .other) {as : List Action} {s : State}
    (h : run step (start entries) as = some s) :
    (EntriesSound s ↔ Along NotHalfway step (start entries) as) ∧
    s.fifo.isSome = s.squint ∧ s.kfreed.Nodup ∧ none ∉ s.kfreed ∧
    (∀ ret memory, s.squint = false → (kfifoSquintInit ret memory s.toResources).1 ≠ 0 →
      (kfifoSquintInit ret memory s.toResources).2.entries = s.entries ∧
      (kfifoSquintInit ret memory s.toResources).2.fifo = s.fifo) ∧
    (∀ memTrace memNoTrace, (mockfsInit memTrace memNoTrace s.toResources).1 ≠ 0 →
      (mockfsInit memTrace memNoTrace s.toResources).2.fifo = s.fifo ∧
      ((mockfsInit memTrace memNoTrace s.toResources).2.entries = s.entries ↔
        ¬ Halfway s.toResources memTrace memNoTrace)) := by
  have hstart := EntriesOwned.start hentries
  have hfifo : FifoSound s :=
    run_invariant (fun _ _ _ hs hstep => hs.step hstep) (FifoSound.start entries) h
  have howned : EntriesOwned s :=
    run_invariant (fun _ _ _ hs hstep => (EntriesOwned.step hs hstep).1) hstart h
  refine ⟨?_, hfifo.loaded, hfifo.once, hfifo.none_notMem, fun ret memory hsq hret => ?_,
    fun memTrace memNoTrace hret => (mockfsInit_cases memTrace memNoTrace _).error hret⟩
  · rw [howned.sound_iff,
      Along.iff_of_step (fun _ _ _ hs hstep => EntriesOwned.step hs hstep) hstart h]
    have hleft : NothingLeft (start entries) := fun htrace => by cases hentries _ _ htrace
    simp [hleft]
  · obtain ⟨hentries', hnone⟩ := (kfifoSquintInit_cases ret memory s.toResources).error hret
    have : s.fifo = none := by simpa [hsq] using hfifo.loaded
    exact ⟨hentries', by rw [hnone, this]⟩

def retries : List Action :=
  [.loadSquint (-enomem) true, .loadSquint 0 false, .loadMockfs true true, .loadSquint 0 true,
    .loadMockfs false true, .loadMockfs true true, .unloadSquint, .unloadMockfs, .unloadSquint,
    .loadSquint 0 true]

theorem modules_sound_iff_retries :
    ∃ s, run step (start fun _ => none) retries = some s ∧ EntriesSound s ∧
      s.entries procName = some .squint ∧ s.kfreed = [some 1, some 0] := by
  have h : run step (start fun _ => none) retries = some _ := rfl
  exact ⟨_, h, (modules_sound_iff (by simp) h).1.mpr (by decide +kernel), by decide +kernel,
    by decide +kernel⟩

/-- The second `proc_create` of `mockfs_init` fails, for want of memory or because the name is
taken: the module is discarded and its first entry stays, even after `squint_module` is gone. -/
theorem mockfsInit_left_behind :
    (∃ s, run step (start fun _ => none)
        [.loadSquint 0 true, .loadMockfs true false, .unloadSquint] = some s ∧
      s.mockfs = false ∧ s.entries procNameTrace = some .mockfs ∧ ¬ EntriesSound s) ∧
    (∃ s, run step (start fun n => if n = procNameNoTrace then some .other else none)
        [.loadSquint 0 true, .loadMockfs true true, .loadMockfs true true] = some s ∧
      s.mockfs = false ∧ s.entries procNameTrace = some .mockfs ∧ ¬ EntriesSound s) := by
  have hleft : ∀ s : State, s.mockfs = false → s.entries procNameTrace = some .mockfs →
      ¬ EntriesSound s := by
    intro s hmock htrace hs
    have := ((hs.mockfs _).mp htrace).2
    simp [hmock] at this
  constructor
  · refine ⟨_, rfl, by decide +kernel, by decide +kernel, ?_⟩
    apply hleft <;> decide +kernel
  · refine ⟨_, rfl, by decide +kernel, by decide +kernel, ?_⟩
    apply hleft <;> decide +kernel

end Squint.Kernel.Modules
