/-
  THE PATH RESOLVER of SAIFS, in every state that registering, mounting and unmounting lead to.

  1. **Canonical paths** — a path without NUL has the canonical form `absolute (comps path)`; the string test for
     "inside a mount" is the prefix order on components (`pathInMount_iff`), and among the mounts above one path
     the longer one in components is the longer one in bytes (`bytes_lt`).

  2. **`Sound`** — the root is mounted, mount paths are canonical and distinct, their providers are registered;
     `step_ready` keeps it.

  3. **`resolver_correct`** — the resolver picks the one nearest mount, whatever the order of the table, and what
     `mount` did `unmount` undoes.
-/
import Saios.Lib.Run
import Saios.Saifs.State
import Saios.Storage.Nodes

namespace Saios.Saifs

open Path List
open Storage (comps comps_isName comps_isComp comps_absolute)

/-! ## Canonical paths -/

theorem mem_of_mem_components {s c : Str} {x : Char} (hc : c ∈ components s) (hx : x ∈ c) : x ∈ s := by
  have hmem : c ∈ s.splitOn '/' := (mem_filter.mp hc).1
  have hjoin : ['/'].intercalate (s.splitOn '/') = s := intercalate_splitOn '/'
  rw [← hjoin]
  generalize s.splitOn '/' = pieces at hmem
  induction pieces with
  | nil => exact absurd hmem not_mem_nil
  | cons p ps ih =>
    rw [show ['/'].intercalate (p :: ps) = join (p :: ps) from rfl, join_cons]
    rcases mem_cons.mp hmem with rfl | hmem
    · exact mem_append_left _ hx
    · exact mem_append_right _ (mem_flatMap.mpr ⟨c, hmem, mem_cons_of_mem _ hx⟩)

variable {cs : List Str}

theorem mem_resolveDots {d : Str} : ∀ {start : List Str}, d ∈ resolveDots start cs → d ∈ start ∨ d ∈ cs := by
  induction cs with
  | nil => exact fun h => .inl h
  | cons c cs ih =>
    intro start h
    rcases ih h with hd | hd
    · unfold push at hd
      split at hd
      · exact .inl hd
      · split at hd
        · exact .inl (mem_of_mem_dropLast hd)
        · rcases mem_append.mp hd with hd | hd
          · exact .inl hd
          · exact .inr (mem_singleton.mp hd ▸ mem_cons_self)
    · exact .inr (mem_cons_of_mem _ hd)

theorem mem_absolute {x : Char} (h : x ∈ absolute cs) : x = '/' ∨ ∃ c ∈ cs, x ∈ c := by
  by_cases hnil : cs = []
  · rw [hnil] at h
    exact .inl (mem_singleton.mp h)
  · rw [absolute_eq_slashed hnil] at h
    obtain ⟨c, hc, hx⟩ := mem_flatMap.mp h
    rcases mem_cons.mp hx with heq | hx
    · exact .inl heq
    · exact .inr ⟨c, hc, hx⟩

variable {path : Str} {es : List Str}

/-- Components that come from a path without NUL have none. -/
theorem nul_notMem_absolute (h : nul ∉ path) (hes : ∀ e ∈ es, e ∈ comps path) : nul ∉ absolute es := by
  intro hmem
  rcases mem_absolute hmem with heq | ⟨c, hc, hx⟩
  · exact absurd heq (by decide)
  · rcases mem_resolveDots (hes c hc) with hc | hc
    · exact absurd hc not_mem_nil
    · exact h (mem_of_mem_components hc hx)

theorem canonicalizePath_ok (h : nul ∉ path) : canonicalizePath path = .ok (absolute (comps path)) := by
  unfold canonicalizePath
  rw [if_neg h]
  by_cases hroot : path = [] ∨ path = ['/']
  · rcases hroot with rfl | rfl <;> rfl
  · rw [if_neg hroot]
    have hsource : components (if path.head? = some '/' then path else '/' :: path) = components path := by
      split
      · rfl
      · rw [components_slash_cons]
    dsimp only
    rw [hsource, ← comps]
    split
    · next hnil =>
      rw [hnil]
      rfl
    · rfl

theorem canonicalizePath_eq_ok {p : Str} :
    canonicalizePath path = .ok p ↔ nul ∉ path ∧ p = absolute (comps path) := by
  by_cases h : nul ∈ path
  · rw [canonicalizePath, if_pos h]
    refine ⟨fun heq => ?_, fun hp => absurd h hp.1⟩
    cases heq
  · rw [canonicalizePath_ok h, Except.ok.injEq]
    exact ⟨fun heq => ⟨h, heq.symm⟩, fun hp => hp.2.symm⟩

theorem canonical_absolute (h : nul ∉ path) (hes : ∀ e ∈ es, e ∈ comps path) :
    canonicalizePath (absolute es) = .ok (absolute es) := by
  rw [canonicalizePath_ok (nul_notMem_absolute h hes), comps_absolute fun e he => comps_isName path e (hes e he)]

theorem components_comps (path : Str) : components (absolute (comps path)) = comps path :=
  components_absolute (comps_isComp path)

/-! ## Inside a mount -/

variable {ds : List Str}

theorem pathInMount_iff (hc : ∀ c ∈ cs, IsComp c) (hd : ∀ c ∈ ds, IsComp c) :
    pathInMount (absolute cs) (absolute ds) = true ↔ cs <+: ds := by
  by_cases hroot : cs = []
  · subst hroot
    exact iff_of_true rfl nil_prefix
  · have hne : absolute cs ≠ ['/'] := fun heq => hroot (absolute_inj hc nofun heq)
    rw [← extends_absolute hroot hc hd, pathInMount, Bool.or_eq_true, Bool.or_eq_true, beq_iff_eq, beq_iff_eq,
      Bool.and_eq_true, isPrefixOf_iff_prefix, beq_iff_eq]
    constructor
    · rintro ((h | h) | ⟨⟨rest, hrest⟩, hslash⟩)
      · exact absurd h hne
      · exact ⟨[], by rw [append_nil]; exact h, .inl rfl⟩
      · refine ⟨rest, hrest.symm, .inr ?_⟩
        rw [← hrest, getElem?_append_right (Nat.le_refl _), Nat.sub_self] at hslash
        cases rest with
        | nil => cases hslash
        | cons x t => exact ⟨t, by rw [Option.some.inj hslash]⟩
    · rintro ⟨rest, hrest, rfl | ⟨t, rfl⟩⟩
      · exact .inl (.inr (by rw [hrest, append_nil]))
      · refine .inr ⟨⟨_, hrest.symm⟩, ?_⟩
        rw [hrest, getElem?_append_right (Nat.le_refl _), Nat.sub_self]
        rfl

theorem utf8_pos {s : Str} (h : s ≠ []) : 0 < (Bytes.utf8 s).length := by
  cases s with
  | nil => exact absurd rfl h
  | cons c s =>
    rw [Bytes.utf8, flatMap_cons, length_append, String.length_utf8EncodeChar]
    have := c.utf8Size_pos
    omega

/-- A longer list of components is a longer path. -/
theorem absolute_longer (hcs : ∀ c ∈ cs ++ es, IsComp c) (hes : es ≠ []) :
    ∃ t, t ≠ [] ∧ absolute (cs ++ es) = absolute cs ++ t := by
  by_cases hroot : cs = []
  · subst hroot
    cases es with
    | nil => exact absurd rfl hes
    | cons e es =>
      refine ⟨e ++ slashed es, fun hnil => ?_, ?_⟩
      · exact (hcs e mem_cons_self).1 (append_eq_nil_iff.mp hnil).1
      · rw [nil_append, absolute, join_cons]
        rfl
  · refine ⟨slashed es, fun hnil => ?_, absolute_append hroot⟩
    cases es with
    | nil => exact hes rfl
    | cons e es => cases hnil

/-! ## The tables -/

section Tables

variable {π : Type} {name : π → Str} {vfs : π}

structure Sound (s : SaifsState π) : Prop where
  root : ∃ m ∈ s.mounts, m.path = ['/']
  canonical : ∀ m ∈ s.mounts, canonicalizePath m.path = .ok m.path
  distinct : (s.mounts.map MountPoint.path).Nodup
  registered : ∀ m ∈ s.mounts, (providerByIdInternal s m.provider).isSome = true

/-- A state after `init`. -/
structure Ready (s : SaifsState π) : Prop extends Sound s where
  initialized : s.initialized = true

variable {s : SaifsState π}

theorem init_eq (h : s.initialized = true) : init name vfs s = s := if_pos h

theorem ready_new : Ready (init name vfs (SaifsState.new : SaifsState π)) where
  root := ⟨_, mem_singleton_self _, rfl⟩
  canonical := by
    intro m hm
    obtain rfl : m = ⟨['/'], 1, false⟩ := mem_singleton.mp hm
    rfl
  distinct := nodup_singleton _
  registered := by
    intro m hm
    obtain rfl : m = ⟨['/'], 1, false⟩ := mem_singleton.mp hm
    rfl
  initialized := rfl

/-- More providers: the ids that were there are there. -/
theorem providerById_append {id : Nat} (h : (providerByIdInternal s id).isSome = true)
    (more : List (RegisteredProvider π)) (n : Nat) :
    providerByIdInternal { s with providers := s.providers ++ more, nextProviderId := n } id
      = providerByIdInternal s id := by
  unfold providerByIdInternal at h ⊢
  rw [Option.isSome_map] at h
  rw [find?_append, Option.or_of_isSome h]

/-- Everything `mount` can do in a state after `init`. -/
theorem mount_cases (name : π → Str) (vfs : π) (h : s.initialized = true) (path : Str) (provider : Nat)
    (readOnly : Bool) :
    (∃ e, mount name vfs s path provider readOnly = (.error e, s)) ∨
      ∃ p, canonicalizePath path = .ok p ∧ (providerByIdInternal s provider).isSome = true ∧
        (∀ m ∈ s.mounts, m.path ≠ p) ∧
        mount name vfs s path provider readOnly = (.ok (), { s with mounts := s.mounts ++ [⟨p, provider, readOnly⟩] }) := by
  unfold mount
  rw [init_eq h]
  cases hp : canonicalizePath path with
  | error e => exact .inl ⟨e, rfl⟩
  | ok p =>
    dsimp only
    split
    · exact .inl ⟨_, rfl⟩
    · next hprov =>
      split
      · exact .inl ⟨_, rfl⟩
      · next hfree =>
        refine .inr ⟨p, rfl, ?_, fun m hm heq => hfree ?_, rfl⟩
        · rw [← Option.not_isNone, Bool.not_eq_true', ← Bool.not_eq_true]
          exact hprov
        · exact List.any_eq_true.mpr ⟨m, hm, decide_eq_true heq⟩

/-- Everything `unmount` can do. -/
theorem unmount_cases (name : π → Str) (vfs : π) (h : s.initialized = true) (path : Str) :
    (∃ e, unmount name vfs s path = (.error e, s)) ∨
      ∃ p, canonicalizePath path = .ok p ∧ p ≠ ['/'] ∧
        (unmount name vfs s path).2 = { s with mounts := s.mounts.filter fun m => m.path ≠ p } := by
  unfold unmount
  rw [init_eq h]
  cases hp : canonicalizePath path with
  | error e => exact .inl ⟨e, rfl⟩
  | ok p =>
    dsimp only
    split
    · exact .inl ⟨_, rfl⟩
    · next hroot =>
      refine .inr ⟨p, rfl, hroot, ?_⟩
      split <;> rfl

theorem step_init (s : SaifsState π) (op : Op π) : step name vfs s op = step name vfs (init name vfs s) op := by
  have hagain : init name vfs (init name vfs s) = init name vfs s := by
    refine init_eq ?_
    unfold init
    split
    · assumption
    · rfl
  cases op with
  | register provider =>
    show (registerProviderInternal name (init name vfs s) provider).2 = _
    rw [step, registerProvider, hagain]
  | mount path provider readOnly => rw [step, step, Saifs.mount, Saifs.mount, hagain]
  | unmount path => rw [step, step, Saifs.unmount, Saifs.unmount, hagain]

/-- **Everything a call can do** in a state after `init`. -/
theorem step_cases (name : π → Str) (vfs : π) (h : s.initialized = true) (op : Op π) :
    step name vfs s op = s ∨
      (∃ provider, step name vfs s op = { s with
        nextProviderId := (s.nextProviderId + 1) % 2 ^ 64
        providers := s.providers ++ [⟨s.nextProviderId, provider⟩] }) ∨
      (∃ p provider readOnly, canonicalizePath p = .ok p ∧ (providerByIdInternal s provider).isSome = true ∧
        (∀ m ∈ s.mounts, m.path ≠ p) ∧
        step name vfs s op = { s with mounts := s.mounts ++ [⟨p, provider, readOnly⟩] }) ∨
      ∃ p, p ≠ ['/'] ∧ step name vfs s op = { s with mounts := s.mounts.filter fun m => m.path ≠ p } := by
  cases op with
  | register provider =>
    rw [step, registerProvider, init_eq h, registerProviderInternal]
    split
    · exact .inl rfl
    · exact .inr (.inl ⟨provider, rfl⟩)
  | mount path provider readOnly =>
    rw [step]
    rcases mount_cases name vfs h path provider readOnly with ⟨e, he⟩ | ⟨p, hp, hprov, hfree, hmount⟩
    · rw [he]
      exact .inl rfl
    · rw [hmount]
      obtain ⟨hnul, rfl⟩ := canonicalizePath_eq_ok.mp hp
      exact .inr (.inr (.inl ⟨_, provider, readOnly, canonical_absolute hnul fun _ he => he, hprov, hfree, rfl⟩))
  | unmount path =>
    rw [step]
    rcases unmount_cases name vfs h path with ⟨e, he⟩ | ⟨p, -, hroot, hunmount⟩
    · rw [he]
      exact .inl rfl
    · exact .inr (.inr (.inr ⟨p, hroot, hunmount⟩))

theorem Ready.step (h : Ready s) (op : Op π) : Ready (step name vfs s op) := by
  rcases step_cases name vfs h.initialized op with
    hsame | ⟨provider, hreg⟩ | ⟨p, provider, readOnly, hp, hprov, hfree, hmount⟩ | ⟨p, hroot, hunmount⟩
  · rw [hsame]
    exact h
  · rw [hreg]
    refine { h with registered := fun m hm => ?_ }
    have hsome := h.registered m hm
    rw [← providerById_append hsome [⟨s.nextProviderId, provider⟩] ((s.nextProviderId + 1) % 2 ^ 64)] at hsome
    exact hsome
  · rw [hmount]
    obtain ⟨m, hm, hroot⟩ := h.root
    refine ⟨⟨⟨m, mem_append_left _ hm, hroot⟩, fun m hm => ?_, ?_, fun m hm => ?_⟩, h.initialized⟩
    · rcases mem_append.mp hm with hm | hm
      · exact h.canonical m hm
      · rw [mem_singleton.mp hm]
        exact hp
    · rw [map_append, nodup_append]
      refine ⟨h.distinct, nodup_singleton _, ?_⟩
      rintro q hq _ hq' rfl
      obtain ⟨m, hm, rfl⟩ := List.mem_map.mp hq
      exact hfree m hm (mem_singleton.mp hq')
    · rcases mem_append.mp hm with hm | hm
      · exact h.registered m hm
      · rw [mem_singleton.mp hm]
        exact hprov
  · rw [hunmount]
    obtain ⟨m, hm, hpath⟩ := h.root
    refine ⟨⟨⟨m, mem_filter.mpr ⟨hm, ?_⟩, hpath⟩, fun m hm => ?_, ?_, fun m hm => ?_⟩, h.initialized⟩
    · rw [hpath]
      exact decide_eq_true (Ne.symm hroot)
    · exact h.canonical m (mem_filter.mp hm).1
    · exact h.distinct.sublist (filter_sublist.map _)
    · exact h.registered m (mem_filter.mp hm).1

theorem step_ready (h : Ready (init name vfs s)) (op : Op π) :
    Ready (init name vfs (step name vfs s op)) := by
  have hstep : Ready (Saifs.step name vfs s op) := by
    rw [step_init]
    exact h.step op
  rw [init_eq hstep.initialized]
  exact hstep

/-- **Every state that calls lead to.** -/
theorem ready_run (ops : List (Op π)) : Ready (init name vfs (ops.foldl (step name vfs) SaifsState.new)) :=
  Run.foldl_inv (I := fun s => Ready (init name vfs s)) (fun _ op h => step_ready h op) ops ready_new

end Tables

/-! ## Resolution -/

variable {m : MountPoint}

section Resolution

variable {π : Type} {s : SaifsState π}

/-- What the resolver needs of the mount table. -/
structure Placed (s : SaifsState π) : Prop where
  root : ∃ m ∈ s.mounts, m.path = ['/']
  canonical : ∀ m ∈ s.mounts, canonicalizePath m.path = .ok m.path
  distinct : (s.mounts.map MountPoint.path).Nodup

theorem Sound.placed (h : Sound s) : Placed s := { h with }

section

variable (h : Placed s) (hm : m ∈ s.mounts)

include h hm

theorem Placed.path_eq : m.path = absolute (comps m.path) :=
  (canonicalizePath_eq_ok.mp (h.canonical m hm)).2

theorem Placed.comparedPath : m.comparedPath = m.path := by
  refine if_neg fun hnil => ?_
  have heq := h.path_eq hm
  rw [hnil] at heq
  cases heq

/-- The candidates of the resolver are the mounts above the path. -/
theorem Placed.candidate (hds : ∀ c ∈ ds, IsComp c) :
    pathInMount m.comparedPath (absolute ds) = true ↔ comps m.path <+: ds := by
  rw [h.comparedPath hm, h.path_eq hm, pathInMount_iff (comps_isComp _) hds, comps_absolute (comps_isName _)]

theorem Placed.eq_of_comps {n : MountPoint} (hn : n ∈ s.mounts) (heq : comps m.path = comps n.path) : m = n := by
  refine inj_on_of_nodup_map h.distinct hm hn ?_
  rw [h.path_eq hm, h.path_eq hn, heq]

end

/-- Of two beginnings of one list, the longer goes on where the other ends. -/
theorem exists_longer {α : Type} {as bs ds : List α} (ha : as <+: ds) (hb : bs <+: ds) (hlt : as.length < bs.length) :
    ∃ es, es ≠ [] ∧ as ++ es = bs := by
  obtain ⟨es, hes⟩ := prefix_of_prefix_length_le ha hb (Nat.le_of_lt hlt)
  refine ⟨es, ?_, hes⟩
  rintro rfl
  rw [append_nil] at hes
  rw [hes] at hlt
  exact Nat.lt_irrefl _ hlt

section longer

variable {n : MountPoint} (h : Placed s) (hm : m ∈ s.mounts) (hn : n ∈ s.mounts) (hmd : comps m.path <+: ds)
  (hnd : comps n.path <+: ds) (hlt : (comps m.path).length < (comps n.path).length)

include h hm hn hmd hnd hlt

/-- Of two mounts above one path, the one with more components has the longer path ... -/
theorem Placed.longer : ∃ t, t ≠ [] ∧ n.path = m.path ++ t := by
  obtain ⟨es, hne, hes⟩ := exists_longer hmd hnd hlt
  obtain ⟨t, ht, heq⟩ := absolute_longer (fun c hc => comps_isComp n.path c (hes ▸ hc)) hne
  exact ⟨t, ht, by rw [h.path_eq hn, ← hes, heq, ← h.path_eq hm]⟩

/-- ... and more bytes. -/
theorem Placed.bytes_lt : (Bytes.utf8 m.comparedPath).length < (Bytes.utf8 n.comparedPath).length := by
  obtain ⟨t, ht, heq⟩ := h.longer hm hn hmd hnd hlt
  have hpos := utf8_pos ht
  rw [h.comparedPath hm, h.comparedPath hn, heq, show Bytes.utf8 (_ ++ t) = _ from flatMap_append, length_append]
  exact Nat.lt_add_of_pos_right hpos

end longer

theorem Placed.told (h : Placed s) (hds : ∀ c ∈ ds, IsComp c) :
    Best.Told (fun m => pathInMount m.comparedPath (absolute ds)) (fun m => (Bytes.utf8 m.comparedPath).length)
      s.mounts := by
  intro m hm n hn hpm hpn hscore
  have hmd := (h.candidate hm hds).mp hpm
  have hnd := (h.candidate hn hds).mp hpn
  refine h.eq_of_comps hm hn ?_
  rcases Nat.lt_trichotomy (comps m.path).length (comps n.path).length with hlt | heq | hgt
  · exact absurd hscore (Nat.ne_of_lt (h.bytes_lt hm hn hmd hnd hlt))
  · exact (prefix_of_prefix_length_le hmd hnd (Nat.le_of_eq heq)).eq_of_length heq
  · exact absurd hscore.symm (Nat.ne_of_lt (h.bytes_lt hn hm hnd hmd hgt))

/-- The mount path in front of the path inside the mount. -/
def joinPaths (mountPath providerPath : Str) : Str :=
  if mountPath = ['/'] then providerPath
  else if providerPath = ['/'] then mountPath
  else mountPath ++ providerPath

/-- The part of an absolute path below a mount above it. -/
theorem providerPath_eq (hcs : ∀ c ∈ cs, IsComp c) (hes : ∀ c ∈ es, IsComp c) :
    providerPathFromMount (absolute cs) (absolute (cs ++ es)) = absolute es := by
  unfold providerPathFromMount
  by_cases hroot : cs = []
  · subst hroot
    rw [if_pos (show absolute [] = ['/'] from rfl), nil_append]
  · have hne : absolute cs ≠ ['/'] := fun heq => hroot (absolute_inj hcs nofun heq)
    rw [if_neg hne, absolute_append hroot]
    cases es with
    | nil => rw [slashed, flatMap_nil, append_nil, if_pos rfl]; rfl
    | cons e es =>
      rw [if_neg (by simp [slashed]), drop_left, absolute_eq_slashed (cons_ne_nil e es)]
      exact if_pos rfl

theorem joinPaths_eq (hcs : ∀ c ∈ cs, IsComp c) (hes : ∀ c ∈ es, IsComp c) :
    joinPaths (absolute cs) (absolute es) = absolute (cs ++ es) := by
  have hnone : ∀ {ds : List Str}, (∀ c ∈ ds, IsComp c) → absolute ds = ['/'] → ds = [] :=
    fun hds heq => absolute_inj hds nofun heq
  unfold joinPaths
  by_cases hroot : cs = []
  · subst hroot
    rw [if_pos (show absolute [] = ['/'] from rfl), nil_append]
  · rw [if_neg fun heq => hroot (hnone hcs heq)]
    by_cases hself : es = []
    · subst hself
      rw [if_pos (show absolute [] = ['/'] from rfl), append_nil]
    · rw [if_neg fun heq => hself (hnone hes heq), absolute_append hroot, absolute_eq_slashed hself]

/-- What a resolved path has to be. -/
structure Resolves (s : SaifsState π) (path : Str) (r : ResolvedPath) : Prop where
  input : r.inputPath = path
  absolutePath : canonicalizePath path = .ok r.absolutePath
  mounted : ⟨r.mountPath, r.provider, r.readOnly⟩ ∈ s.mounts
  above : components r.mountPath <+: components r.absolutePath
  longest : ∀ m ∈ s.mounts, components m.path <+: components r.absolutePath →
    m ≠ ⟨r.mountPath, r.provider, r.readOnly⟩ → (components m.path).length < (components r.mountPath).length
  joined : joinPaths r.mountPath r.providerPath = r.absolutePath
  canonical : canonicalizePath r.providerPath = .ok r.providerPath

theorem Placed.components_path (h : Placed s) (hm : m ∈ s.mounts) : components m.path = comps m.path := by
  rw [h.path_eq hm, components_comps, comps_absolute (comps_isName _)]

/-- **The resolver finds the one nearest mount, in whatever order the mounts are.** -/
theorem Placed.resolves (h : Placed s) (hnul : nul ∉ path) :
    ∃ r, Resolves s path r ∧ ∀ mounts, s.mounts.Perm mounts →
      resolvePathInternal { s with mounts := mounts } path = .ok r := by
  have hds := comps_isComp path
  obtain ⟨root, hroot, hpath⟩ := h.root
  have hcand : pathInMount root.comparedPath (absolute (comps path)) = true := by
    rw [h.candidate hroot hds, hpath]
    exact nil_prefix
  obtain ⟨m, hpick⟩ := Best.exists_pick
    (p := fun m => pathInMount m.comparedPath _) hroot hcand
  obtain ⟨hm, hpm, hmax⟩ := Best.pick_spec hpick
  obtain ⟨es, hes⟩ := (h.candidate hm hds).mp hpm
  have hesub : ∀ e ∈ es, e ∈ comps path := fun e he => hes ▸ mem_append_right _ he
  have hescomp : ∀ e ∈ es, IsComp e := fun e he => hds e (hesub e he)
  have hprovider : providerPathFromMount m.path (absolute (comps path)) = absolute es := by
    rw [← hes, h.path_eq hm, comps_absolute (comps_isName _), providerPath_eq (comps_isComp _) hescomp]
  refine ⟨{ inputPath := path, absolutePath := absolute (comps path)
            providerPath := providerPathFromMount m.path (absolute (comps path))
            mountPath := m.path, provider := m.provider, readOnly := m.readOnly }, ?_, fun mounts hperm => ?_⟩
  · refine ⟨rfl, canonicalizePath_ok hnul, hm, ?_, fun n hn habove hne => ?_, ?_, ?_⟩
    · rw [h.components_path hm, components_comps]
      exact ⟨es, hes⟩
    · rw [h.components_path hn, components_comps] at habove
      rw [h.components_path hn, h.components_path hm]
      have hle : (comps n.path).length ≤ (comps m.path).length := by
        by_contra hgt
        have hlt := h.bytes_lt hm hn ⟨es, hes⟩ habove (Nat.lt_of_not_le hgt)
        exact absurd (hmax n hn ((h.candidate hn hds).mpr habove)) (Nat.not_le.mpr hlt)
      refine Nat.lt_of_le_of_ne hle fun heq => hne (h.eq_of_comps hn hm ?_)
      exact (prefix_of_prefix_length_le habove ⟨es, hes⟩ hle).eq_of_length heq
    · rw [hprovider, ← hes, h.path_eq hm, comps_absolute (comps_isName _), joinPaths_eq (comps_isComp _) hescomp]
    · rw [hprovider]
      exact canonical_absolute hnul hesub
  · have hmount : resolveMountInternal { s with mounts := mounts } (absolute _) = some m :=
      (Best.pick_perm hperm (h.told hds)).trans hpick
    rw [resolvePathInternal, canonicalizePath_ok hnul]
    dsimp only
    rw [hmount]

/-- What `mount` puts at the end of the table, `unmount` takes away. -/
theorem unmount_mount {name : π → Str} {vfs : π} (hinit : s.initialized = true) {p : Str} {provider : Nat}
    {readOnly : Bool} {s1 s2 : SaifsState π} (hmount : mount name vfs s p provider readOnly = (.ok (), s1))
    (hunmount : unmount name vfs s1 p = (.ok (), s2)) : s2 = s := by
  rcases mount_cases name vfs hinit p provider readOnly with ⟨e, he⟩ | ⟨q, hq, -, hfree, hdone⟩
  · rw [he] at hmount
    cases hmount
  · have hs1 : _ = s1 := (Prod.mk.inj (hdone.symm.trans hmount)).2
    have hinit1 : s1.initialized = true := hs1 ▸ hinit
    rcases unmount_cases name vfs hinit1 p with ⟨e, he⟩ | ⟨q', hq', -, hafter⟩
    · rw [he] at hunmount
      cases hunmount
    · obtain rfl : q = q' := Except.ok.inj (hq.symm.trans hq')
      rw [hunmount, ← hs1] at hafter
      have hkeep : s.mounts.filter (fun m => m.path ≠ q) = s.mounts :=
        filter_eq_self.mpr fun m hm => decide_eq_true (hfree m hm)
      rw [show s2 = _ from hafter]
      rw [filter_append, hkeep]
      simp

end Resolution

/-- **The mount table and the resolver of SAIFS, after any registrations, mounts and unmounts.** -/
theorem resolver_correct {π : Type} (name : π → Str) (vfs : π) (ops : List (Op π)) :
    let s := ops.foldl (step name vfs) SaifsState.new
    Sound (init name vfs s) ∧
      (∀ path, nul ∉ path → ∃ r, (resolve name vfs s path).1 = .ok r ∧ Resolves (init name vfs s) path r ∧
        ∀ mounts, (init name vfs s).mounts.Perm mounts →
          (resolve name vfs { init name vfs s with mounts := mounts } path).1 = .ok r) ∧
      ∀ p provider readOnly s₁ s₂, mount name vfs s p provider readOnly = (.ok (), s₁) →
        unmount name vfs s₁ p = (.ok (), s₂) →
        ∀ path, (resolve name vfs s₂ path).1 = (resolve name vfs s path).1 := by
  intro s
  have hready : Ready (init name vfs s) := ready_run ops
  refine ⟨hready.toSound, fun path hnul => ?_, fun p provider readOnly s₁ s₂ hmount hunmount path => ?_⟩
  · obtain ⟨r, hr, hperm⟩ := hready.toSound.placed.resolves hnul
    refine ⟨r, hperm _ (List.Perm.refl _), hr, fun mounts hp => ?_⟩
    have hinit : init name vfs { init name vfs s with mounts := mounts } = { init name vfs s with mounts := mounts } :=
      init_eq hready.initialized
    rw [resolve, hinit]
    exact hperm mounts hp
  · have hmount' : mount name vfs (init name vfs s) p provider readOnly = (.ok (), s₁) := by
      rw [← hmount, mount, mount, init_eq hready.initialized]
    obtain rfl : s₂ = init name vfs s := unmount_mount hready.initialized hmount' hunmount
    rw [resolve, resolve, init_eq hready.initialized]

/-- A provider mounted at `/x`, and the VFS once more below it. -/
def nestedOps : List (Op Str) :=
  [.register ['b'], .mount "/x".toList 2 false, .mount "x/y/../y".toList 1 true]

def nested : SaifsState Str := nestedOps.foldl (step id ['v']) SaifsState.new

theorem resolver_correct_nested :
    (∃ r, (resolve id ['v'] nested "/x//y/z".toList).1 = .ok r ∧ Resolves (init id ['v'] nested) "/x//y/z".toList r) ∧
      ∀ path, (resolve id ['v'] (unmount id ['v'] (mount id ['v'] nested "/m".toList 2 true).2 "/m".toList).2 path).1
        = (resolve id ['v'] nested path).1 := by
  obtain ⟨-, hresolve, hback⟩ := resolver_correct id ['v'] nestedOps
  obtain ⟨r, hr, hspec, -⟩ := hresolve "/x//y/z".toList (by decide)
  exact ⟨⟨r, hr, hspec⟩, hback "/m".toList 2 true _ _ rfl rfl⟩

end Saios.Saifs
