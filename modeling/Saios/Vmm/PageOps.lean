/-
  One PAGE at a time: `map_page_hw` and `unmap_page_hw` are sequences of edits, through any `Mmu` that
  holds nothing stale for the pointers they use.

  1. **`Runs`** — a machine reaches another by a list of edits; CR3 stays, and for every pointer that
     was not stale before and whose table was not cut nothing is stale afterwards.

  2. **Accesses** — at the pointer of a managed path the machine reaches the table of that path
     (`access_eq`).  A `link` is done through TWO pointers: the entry is written through the parent's,
     the new table cleared through its own, which must not be cached from an earlier table
     (`ensureTable_cases`).

  3. **Results** — `mapPageHw_cases` and `unmapPageHw_spec` name the edits of each outcome.
-/
import Saios.Vmm.Edits

namespace Saios.Vmm

open Saios.Memory List Option

variable {mmu : Mmu}

/-! ## Machines -/

/-- The tables the manager works on. -/
def Managed (q : List Index) : Prop := (q = [] ∨ Regular q) ∧ q.length ≤ 3

variable {q : List Index}

theorem Managed.inner (h : Managed q) : Inner q := by
  rcases h.1 with rfl | hreg
  · exact ⟨by simp, by simp⟩
  · exact hreg.inner h.2

namespace Machine

/-- Nothing stale is cached for the pointer of `q`. -/
def Sees (m : Machine mmu) (q : List Index) : Prop := mmu.Sees m.tlb m.pages (tablePtrOf q / 4096)

def Sound (m : Machine mmu) : Prop := Vmm.Sound m.root m.toSpace

/-- The machine after an access. -/
def touch (m : Machine mmu) (ptr : Nat) : Machine mmu :=
  { m with tlb := (mmu.lookup m.tlb m.pages (ptr / 4096)).2 }

end Machine

/-- `m'` comes from `m` by the edits `cs`. -/
structure Runs (m : Machine mmu) (cs : List Edit) (m' : Machine mmu) : Prop where
  cr3 : m'.cr3 = m.cr3
  edits : Edits m.root cs m.toSpace m'.toSpace
  sees : ∀ {q}, Managed q → (∀ p i, Edit.cut p i ∈ cs → q ≠ p ++ [i]) → m.Sees q → m'.Sees q

variable {f : Nat}

namespace Runs

variable {m m₁ m' : Machine mmu} {cs ds : List Edit}

theorem root (h : Runs m cs m') : m'.root = m.root := congrArg frame h.cr3

theorem sound (h : Runs m cs m') (hs : m.Sound) : m'.Sound := by
  rw [Machine.Sound, h.root]
  exact h.edits.sound hs

theorem refl (m : Machine mmu) : Runs m [] m := ⟨rfl, .nil _, fun _ _ h => h⟩

theorem trans (h : Runs m cs m₁) (h' : Runs m₁ ds m') : Runs m (cs ++ ds) m' := by
  refine ⟨h'.cr3.trans h.cr3, h.edits.append (h.root ▸ h'.edits), fun hq hcut hsee => ?_⟩
  refine h'.sees hq (fun p i hmem => hcut p i (mem_append_right cs hmem)) ?_
  exact h.sees hq (fun p i hmem => hcut p i (mem_append_left ds hmem)) hsee

theorem mem_eq (h : Runs m [] m') : m'.mem = m.mem := by
  obtain ⟨-, hedits, -⟩ := h
  generalize m'.toSpace = s at hedits ⊢
  cases hedits
  rfl

theorem touch (m : Machine mmu) (ptr : Nat) : Runs m [] (m.touch ptr) :=
  ⟨rfl, .nil _, fun _ _ h => mmu.sees_lookup _ h⟩

theorem invlpg (m : Machine mmu) (virt : Nat) : Runs m [] (m.invlpg virt) :=
  ⟨rfl, .nil _, fun _ _ h => mmu.sees_invlpg _ h⟩

/-- An edit makes only the pointer of a cut table stale. -/
theorem sees_edit (hs : m.Sound) {c : Edit} {s' : Space} (h : Does m.root c m.toSpace s') (hq : Managed q)
    (hcut : ∀ p i, c = .cut p i → q ≠ p ++ [i]) {t : mmu.State}
    (hsee : mmu.Sees t m.pages (tablePtrOf q / 4096)) :
    mmu.Sees t (translatePage s'.mem m.root) (tablePtrOf q / 4096) := by
  refine mmu.sees_mono hsee fun f hf => ?_
  have hnow : m.pages (tablePtrOf q / 4096) = tableAt m.mem m.root q :=
    Paged.pages_tablePtrOf hs.toPaged hq.1 hq.2
  have hthen : translatePage s'.mem m.root (tablePtrOf q / 4096) = tableAt s'.mem m.root q :=
    Paged.pages_tablePtrOf (h.sound hs).toPaged hq.1 hq.2
  rw [hnow] at hf
  exact hthen.trans (h.keeps hs hq.inner hcut hf)

theorem edit (hs : m.Sound) {c : Edit} {s' : Space} (h : Does m.root c m.toSpace s') :
    Runs m [c] { m with toSpace := s' } := by
  refine ⟨rfl, .one h, fun {q} hq hcut hsee => sees_edit hs h hq (fun p i hc => ?_) hsee⟩
  exact hcut p i (hc ▸ mem_singleton_self _)

/-- The tables after one edit. -/
theorem tables {c : Edit} (h : Runs m [c] m') (hs : m.Sound) (hq : Inner q) :
    tableAt m'.mem m'.root q = c.onTables (tableAt m.mem m.root) q := by
  rw [h.root]
  obtain ⟨-, hedits, -⟩ := h
  generalize m'.toSpace = s at hedits ⊢
  cases hedits with
  | cons hdo rest =>
    cases rest with
    | nil => exact hdo.tables hs hq

/-- Tables that are not cut stay where they are. -/
theorem keeps (h : Runs m cs m') (hs : m.Sound) (hq : Inner q)
    (hcut : ∀ p i, Edit.cut p i ∈ cs → q ≠ p ++ [i]) (hf : tableAt m.mem m.root q = some f) :
    tableAt m'.mem m'.root q = some f := by
  rw [h.root]
  exact h.edits.keeps hs hq hcut hf

end Runs

/-! ## Accesses -/

section Access

variable {m : Machine mmu} {q : List Index} {f : Nat}

section

variable (hs : m.Sound) (hq : Managed q) (hsee : m.Sees q) (hf : tableAt m.mem m.root q = some f)

include hs hq hsee hf

/-- **At the pointer of a path the machine reaches the table of that path.** -/
theorem access_eq :
    m.access (tablePtrOf q) = some (f, m.touch (tablePtrOf q)) := by
  have hpages : m.pages (tablePtrOf q / 4096) = some f :=
    (Paged.pages_tablePtrOf hs.toPaged hq.1 hq.2).trans hf
  rw [Machine.access, mmu.lookup_of_sees hsee, hpages]
  rfl

theorem readEntry_eq (i : Index) :
    m.readEntry (tablePtrOf q) i = some (m.mem f i, m.touch (tablePtrOf q)) := by
  rw [Machine.readEntry, access_eq hs hq hsee hf]
  rfl

theorem modifyEntry_eq (i : Index) (g : Entry → Entry) :
    m.modifyEntry (tablePtrOf q) i g =
      some { m.touch (tablePtrOf q) with mem := store m.mem f i (g (m.mem f i)) } := by
  rw [Machine.modifyEntry, access_eq hs hq hsee hf]
  rfl

end

end Access

variable {m : Machine mmu}

theorem clearTable_eq {ptr : Nat} (hsee : mmu.Sees m.tlb m.pages (ptr / 4096))
    (hf : m.pages (ptr / 4096) = some f) :
    m.clearTable ptr = some { m.touch ptr with mem := clear m.mem f } := by
  rw [Machine.clearTable, Machine.access, mmu.lookup_of_sees hsee, hf]
  rfl

/-- An access keeps every pointer as fresh as it was. -/
theorem Machine.Sees.touch (h : m.Sees q) (ptr : Nat) : (m.touch ptr).Sees q := mmu.sees_lookup _ h

/-! ## `ensureTable` -/

variable {p : List Index} {i : Index} {flags : Entry}

/-- Between writing the entry and clearing the table, the hardware already finds the new table at its
    pointer, whatever the frame holds. -/
theorem half_linked {root : Nat} {s : Space} (hs : Sound root s) {g : Nat} (hreg : Regular (p ++ [i]))
    (hlen : p.length ≤ 2) (ht : tableAt s.mem root p = some f)
    (halloc : (allocPage s.pmm).1 = some (g * 4096)) (hflags : flags &&& addrMask = 0#64)
    (hhuge : isHuge flags = false) :
    translatePage (store s.mem f i (setPage 0#64 (g * 4096) flags)) root
      (tablePtrOf (p ++ [i]) / 4096) = some g := by
  have hp : Inner p := hreg.inner_init (by omega)
  have hcell : ∀ q l, ¬(q = f ∧ l = i) →
      store s.mem f i (setPage 0#64 (g * 4096) flags) q l = s.mem q l := fun q l => store_other
  have hnew := store_same s.mem f i (setPage 0#64 (g * 4096) flags)
  generalize store s.mem f i (setPage 0#64 (g * 4096) flags) = mem at hcell hnew ⊢
  -- above the new table nothing has changed
  have habove : ∀ q, q <+: p → tableAt mem root q = tableAt s.mem root q := by
    intro q hpre
    refine hs.apart.walk_off inner_closed hp ht
      (fun _ q l _ _ hne => edges_congr (hcell q l hne)) (inner_closed hpre hp) fun hover => ?_
    have hle := (hover.trans hpre).length_le
    rw [length_append, length_singleton] at hle
    omega
  have hrec : Recursive mem root := by
    have hsame : mem root 511 = s.mem root 511 := by
      refine hcell root 511 ?_
      rintro ⟨rfl, rfl⟩
      obtain rfl : p = [] := hs.apart hp ⟨by simp, by simp⟩ ht rfl
      exact hreg.2 rfl
    refine ⟨?_, ?_, ?_⟩
    · rw [hsame]; exact hs.recPresent
    · rw [hsame]; exact hs.recSmall
    · rw [hsame]; exact hs.recFrame
  have hsmall : ∀ q g' j, q ++ [j] <+: p ++ [i] → tableAt mem root q = some g' → isHuge (mem g' j) = false := by
    intro q g' j hpre hq
    have hle := hpre.length_le
    simp only [length_append, length_singleton] at hle
    have hqp : q <+: p :=
      prefix_of_prefix_length_le ((prefix_append q [j]).trans hpre)
        (prefix_append p [i]) (by omega)
    rw [habove q hqp] at hq
    by_cases hc : g' = f ∧ j = i
    · rw [hc.1, hc.2, hnew]
      exact isHuge_setPage _ hhuge
    · rw [hcell g' j hc]
      exact hs.small (hreg.of_init hpre (by simp)) (by omega) hq
  rw [hrec.pages (by rw [length_append, length_singleton]; omega) hsmall, tableAt_concat,
    habove p (prefix_refl p), ht, bind_some, edges, hnew,
    if_pos ⟨isPresent_setPage .., isHuge_setPage _ hhuge⟩, frame_setPage_table hs halloc hflags]

/-- The two writes of a new table, through two pointers: the entry in its parent, then the table. -/
theorem link_runs (hs : m.Sound) {g : Nat} (hreg : Regular (p ++ [i])) (hp : Managed p) (hlen : p.length ≤ 2)
    (ht : tableAt m.mem m.root p = some f) (hsee : m.Sees p) (hchild : m.Sees (p ++ [i]))
    (hfree : isPresent (m.mem f i) = false) (halloc : (allocPage m.pmm).1 = some (g * 4096))
    (hflags : flags &&& addrMask = 0#64) (hhuge : isHuge flags = false) :
    ∃ m', (((m.setPmm (allocPage m.pmm).2).modifyEntry (tablePtrOf p) i
          fun e => setPage e (g * 4096) flags).bind fun m => m.clearTable (tablePtrOf (p ++ [i]))) =
        some m' ∧
      Runs m [.link p i (setPage 0#64 (g * 4096) flags)] m' := by
  have hq : Managed (p ++ [i]) :=
    ⟨Or.inr hreg, by rw [length_append, length_singleton]; omega⟩
  have hdoes := Does.link hreg hlen ht hfree halloc hflags hhuge
  -- the write of the entry
  have hs2 : (m.setPmm (allocPage m.pmm).2).Sound := by
    obtain ⟨page, -, -, -, htracked, -, hused⟩ := allocPage_some halloc
    refine ⟨hs.toPaged, fun hq hf => ?_, ?_⟩
    · rw [Machine.setPmm, hused, hs.used hq hf, Bool.or_true]
    · rw [Machine.setPmm, htracked]; exact hs.tracked
  have hmod := modifyEntry_eq hs2 hp hsee ht i fun e => setPage e (g * 4096) flags
  have hzero : (m.setPmm (allocPage m.pmm).2).mem f i = 0#64 := hs.clean hreg (by omega) ht hfree
  rw [hzero] at hmod
  rw [hmod]
  -- the pointer of the new table was not mapped, so it is not cached: the access finds the new table
  let half : Machine mmu := { (m.setPmm (allocPage m.pmm).2).touch (tablePtrOf p) with
    mem := store m.mem f i (setPage 0#64 (g * 4096) flags) }
  have hnone : m.pages (tablePtrOf (p ++ [i]) / 4096) = none := by
    rw [Machine.pages, Paged.pages_tablePtrOf hs.toPaged hq.1 hq.2, tableAt_concat, ht, bind_some,
      edges_of_not_present hfree]
  have hold : ∀ {q}, m.Sees q → mmu.Sees half.tlb m.pages (tablePtrOf q / 4096) :=
    fun h => mmu.sees_lookup _ h
  have hsee' : mmu.Sees half.tlb half.pages (tablePtrOf (p ++ [i]) / 4096) := by
    refine mmu.sees_mono (hold hchild) fun f' hf' => ?_
    rw [hnone] at hf'
    cases hf'
  have hhalf : half.pages (tablePtrOf (p ++ [i]) / 4096) = some g :=
    half_linked hs hreg hlen ht halloc hflags hhuge
  refine ⟨{ half.touch _ with mem := clear half.mem g },
    clearTable_eq hsee' hhalf, rfl, .one hdoes, fun {q} hq' _ hsee => ?_⟩
  have hthen := Paged.pages_tablePtrOf (hdoes.sound hs).toPaged hq.1 hq.2
  by_cases hpage : tablePtrOf (p ++ [i]) / 4096 = tablePtrOf q / 4096
  · -- what is cached now for the new table is the new table
    show mmu.Sees (mmu.lookup half.tlb half.pages (tablePtrOf (p ++ [i]) / 4096)).2
      (translatePage (clear half.mem g) m.root) (tablePtrOf q / 4096)
    rw [← hpage]
    refine mmu.sees_mono (mmu.sees_self hsee') fun f' hf' => ?_
    rw [← hf', hhalf]
    refine hthen.trans ?_
    rw [hdoes.tables hs hq.inner]
    simp only [Edit.onTables, if_true, frame_setPage_table hs halloc hflags]
  · exact mmu.sees_other hpage
      (Runs.sees_edit hs hdoes hq' (fun p i hc => (by cases hc)) (hold hsee))

/-- The table is there, or is made, or the PMM has no page for it. -/
inductive Ensured (m : Machine mmu) (p : List Index) (i : Index) (flags : Entry) (oom : String) :
    Except String Unit → List Edit → Prop
  | there (h : (tableAt m.mem m.root (p ++ [i])).isSome) : Ensured m p i flags oom (.ok ()) []
  | made (h : tableAt m.mem m.root (p ++ [i]) = none) (page : Nat) :
      Ensured m p i flags oom (.ok ()) [.link p i (setPage 0#64 page (nonleafFlags flags))]
  | full (h : tableAt m.mem m.root (p ++ [i]) = none) : Ensured m p i flags oom (.error oom) []

/-- **`ensureTable` is at most one `link`.** -/
theorem ensureTable_cases (hs : m.Sound) (hreg : Regular (p ++ [i])) (hp : Managed p) (hlen : p.length ≤ 2)
    (ht : tableAt m.mem m.root p = some f) (hsee : m.Sees p) (hchild : m.Sees (p ++ [i])) (flags : Entry)
    (oom : String) :
    ∃ r cs m', ensureTable m (tablePtrOf p) i (tablePtrOf (p ++ [i])) flags oom = some (r, m') ∧
      Runs m cs m' ∧ Ensured m p i flags oom r cs := by
  have hedge : tableAt m.mem m.root (p ++ [i]) = edges m.mem f i := by
    rw [tableAt_concat, ht, bind_some]
  unfold ensureTable
  rw [readEntry_eq hs hp hsee ht, bind_some]
  by_cases hpres : isPresent (m.mem f i) = true
  · rw [if_pos hpres]
    refine ⟨_, _, _, rfl, Runs.touch m _, .there ?_⟩
    rw [hedge, edges, if_pos ⟨hpres, hs.small hreg hlen ht⟩]
    rfl
  rw [if_neg hpres]
  rw [Bool.not_eq_true] at hpres
  have hnone : tableAt m.mem m.root (p ++ [i]) = none := by rw [hedge, edges_of_not_present hpres]
  cases ha : (allocPage m.pmm).1 with
  | none =>
    have hpmm := allocPage_none ha
    refine ⟨.error oom, [], m.touch (tablePtrOf p), ?_, Runs.touch m _, .full hnone⟩
    simp only [Machine.touch, ha, Machine.setPmm, hpmm]
  | some page =>
    obtain ⟨g, rfl, -⟩ := allocPage_some ha
    obtain ⟨m', hm', hruns⟩ := link_runs (m := m.touch _) hs hreg hp hlen ht
      (hsee.touch _) (hchild.touch _) hpres ha
      (show nonleafFlags flags &&& addrMask = _ by unfold nonleafFlags; split <;> decide)
      (by unfold nonleafFlags; split <;> decide)
    refine ⟨.ok (), [.link p i _], m', ?_, (Runs.touch m _).trans hruns, .made hnone _⟩
    obtain ⟨m3, hm3, hclear⟩ := bind_eq_some_iff.mp hm'
    have hpmm : (m.touch (tablePtrOf p)).pmm = m.pmm := rfl
    simp only [hpmm, ha]
    rw [hpmm] at hm3
    simp only [pageSize] at *
    rw [hm3, bind_some, hclear]
    rfl

/-! ## `map_page_hw` -/

/-- With `FLAG_USER`, every entry that is written has the USER bit. -/
def MarksUser (flags : Entry) (cs : List Edit) : Prop :=
  flags &&& vmmUser ≠ 0#64 → ∀ c ∈ cs, isUser c.entry = true

theorem MarksUser.append {cs ds : List Edit} (h : MarksUser flags cs) (h' : MarksUser flags ds) :
    MarksUser flags (cs ++ ds) := fun hf c hc => (mem_append.mp hc).elim (h hf c) (h' hf c)

theorem isUser_setPage (page : Nat) {bits : Entry} (h : bits.getLsbD 2 = true) :
    isUser (setPage 0#64 page bits) = true := by
  have h : (setPage 0#64 page bits &&& flagUser).getLsbD 2 = true := by simp [setPage, flagUser, h]
  rw [isUser, bne_iff_ne]
  intro h0
  rw [h0] at h
  exact absurd h (by decide)

theorem leafFlags_user (hf : flags &&& vmmUser ≠ 0#64) : (leafFlags flags).getLsbD 2 = true := by
  unfold leafFlags
  cases memoryTypeFromFlags flags <;> (split_ifs <;> decide)

/-- Links of tables on the way to `virt`. -/
def OnPath (virt : Nat) (cs : List Edit) : Prop :=
  ∀ c ∈ cs, ∃ p i e, c = .link p i e ∧ p ++ [i] <+: tablePath virt

section Path

variable {m m' : Machine mmu} {virt : Nat} {ls : List Edit}

theorem OnPath.append {ds : List Edit} (h : OnPath virt ls) (h' : OnPath virt ds) : OnPath virt (ls ++ ds) := by
  intro c hc
  rcases mem_append.mp hc with hc | hc
  · exact h c hc
  · exact h' c hc

theorem OnPath.not_cut (h : OnPath virt ls) : Edit.cut p i ∉ ls := by
  intro hmem
  obtain ⟨p', i', e, hc, -⟩ := h _ hmem
  cases hc

/-- Links leave every PT entry as it is. -/
theorem OnPath.leaves (h : OnPath virt ls) (l : List Index → Index → Entry) :
    ls.foldl (fun l c => c.onLeaves l) l = l := by
  induction ls generalizing l with
  | nil => rfl
  | cons c ls ih =>
    obtain ⟨p, i, e, rfl, -⟩ := h c (mem_cons_self ..)
    exact ih (fun c hc => h c (mem_cons_of_mem _ hc)) l

theorem managed_of_init (hreg : Regular (tablePath virt)) (hq : q <+: tablePath virt) : Managed q := by
  refine ⟨?_, hq.length_le⟩
  by_cases hnil : q = []
  · exact .inl hnil
  · exact .inr (hreg.of_init hq hnil)

/-- The outcomes of `map_page_hw` and their edits. -/
inductive PageMapped (m : Machine mmu) (virt phys : Nat) (flags : Entry) :
    Except String Unit → List Edit → Prop
  | ok {ls : List Edit} (onPath : OnPath virt ls) (user : MarksUser flags ls)
      (missing : ls ≠ [] → tableAt m.mem m.root (tablePath virt) = none)
      (free : isPresent (leafAt m.mem m.root (tablePath virt) (index 0 virt)) = false) :
      PageMapped m virt phys flags (.ok ())
        (ls ++ [.leaf (tablePath virt) (index 0 virt) (setPage 0#64 phys (leafFlags flags))])
  | error {ls : List Edit} {e : String} (onPath : OnPath virt ls)
      (why : tableAt m.mem m.root (tablePath virt) = none ∨
        ls = [] ∧ isPresent (leafAt m.mem m.root (tablePath virt) (index 0 virt)) = true) :
      PageMapped m virt phys flags (.error e) ls

/-- The tables of `virt` are there down to `p`; where one had to be made, the PT was missing. -/
structure Reached (m : Machine mmu) (virt : Nat) (flags : Entry) (p : List Index) (ls : List Edit)
    (m' : Machine mmu) : Prop where
  runs : Runs m ls m'
  onPath : OnPath virt ls
  user : MarksUser flags ls
  there : ∃ f, tableAt m'.mem m'.root p = some f
  missing : ls ≠ [] → tableAt m.mem m.root (tablePath virt) = none

@[simp] theorem andThen_ok {σ α β : Type} (a : α) (s : σ) (f : α → σ → Outcome σ β) :
    andThen (some (.ok a, s)) f = f a s := rfl

@[simp] theorem andThen_error {σ α β : Type} (e : String) (s : σ) (f : α → σ → Outcome σ β) :
    andThen (some (.error e, s)) f = some (.error e, s) := rfl

/-- One level further down. -/
theorem ensure_step {phys : Nat} (hs : m.Sound) (hreg : Regular (tablePath virt))
    (hsee : ∀ q, q <+: tablePath virt → m.Sees q) (h : Reached m virt flags p ls m') (hq : q = p ++ [i])
    (hpre : q <+: tablePath virt) (oom : String) {next : Unit → Machine mmu → Outcome (Machine mmu) Unit}
    (hnext : ∀ {ls m₁}, Reached m virt flags q ls m₁ →
      ∃ r cs m2, next () m₁ = some (r, m2) ∧ Runs m cs m2 ∧ PageMapped m virt phys flags r cs) :
    ∃ r cs m2, andThen (ensureTable m' (tablePtrOf p) i (tablePtrOf q) flags oom) next = some (r, m2) ∧
      Runs m cs m2 ∧ PageMapped m virt phys flags r cs := by
  subst hq
  have hlen := hpre.length_le
  rw [length_append] at hlen
  have hp : p <+: tablePath virt := (prefix_append p [i]).trans hpre
  have hplen : p.length ≤ 2 := by
    simp only [tablePath, length_cons] at hlen
    omega
  have hfresh : ∀ q, q <+: tablePath virt → m'.Sees q := fun q hq =>
    h.runs.sees (managed_of_init hreg hq) (fun p i hmem => absurd hmem h.onPath.not_cut) (hsee q hq)
  obtain ⟨f, hf⟩ := h.there
  -- a table missing now was missing before, and so was everything below it
  have hgone : tableAt m'.mem m'.root (p ++ [i]) = none →
      tableAt m.mem m.root (tablePath virt) = none := by
    intro hnone
    by_contra hsome
    obtain ⟨g, hg⟩ := ne_none_iff_exists'.mp hsome
    obtain ⟨g', hg'⟩ := tableAt_of_init hpre hg
    rw [h.runs.keeps hs (managed_of_init hreg hpre).inner
      (fun p i hmem => absurd hmem h.onPath.not_cut) hg'] at hnone
    cases hnone
  obtain ⟨r, cs, m₁, hcall, hruns, hcases⟩ := ensureTable_cases (h.runs.sound hs)
    (hreg.of_init hpre (by simp)) (managed_of_init hreg hp) hplen hf (hfresh p hp)
    (hfresh _ hpre) flags oom
  have hruns' := h.runs.trans hruns
  rw [hcall]
  cases hcases with
  | there hsome =>
    rw [append_nil] at hruns'
    obtain ⟨g, hg⟩ := isSome_iff_exists.mp hsome
    refine hnext ⟨hruns', h.onPath, h.user, ⟨g, ?_⟩, h.missing⟩
    exact hruns.keeps (h.runs.sound hs) (managed_of_init hreg hpre).inner nofun hg
  | made hnone page =>
    refine hnext ⟨hruns', h.onPath.append ?_, h.user.append fun hf c hc => ?_,
      ⟨frame (setPage 0#64 page (nonleafFlags flags)), ?_⟩, fun _ => hgone hnone⟩
    · intro c hc
      exact ⟨p, i, _, mem_singleton.mp hc, hpre⟩
    · rw [mem_singleton.mp hc]
      exact isUser_setPage page (by rw [nonleafFlags, if_pos hf]; decide)
    · rw [hruns.tables (h.runs.sound hs) (managed_of_init hreg hpre).inner]
      exact if_pos rfl
  | full hnone =>
    rw [append_nil] at hruns'
    exact ⟨_, _, _, rfl, hruns', .error h.onPath (Or.inl (hgone hnone))⟩

end Path

/-- The last step. -/
def setLeaf (m : Machine mmu) (virt phys : Nat) (flags : Entry) : Outcome (Machine mmu) Unit :=
  (m.readEntry (tablePtrOf (tablePath virt)) (index 0 virt)).bind fun r =>
    if isPresent r.1 then some (.error "vmm: page already mapped", r.2)
    else
      (r.2.modifyEntry (tablePtrOf (tablePath virt)) (index 0 virt)
        (fun e => setPage e phys (leafFlags flags))).map fun m => (.ok (), m.invlpg virt)

theorem setLeaf_cases {m' : Machine mmu} {virt phys : Nat} {ls : List Edit} (hs : m.Sound)
    (hreg : Regular (tablePath virt)) (hsee : ∀ q, q <+: tablePath virt → m.Sees q)
    (h : Reached m virt flags (tablePath virt) ls m') :
    ∃ r cs m₁, setLeaf m' virt phys flags = some (r, m₁) ∧ Runs m cs m₁ ∧ PageMapped m virt phys flags r cs := by
  unfold setLeaf
  have hs' := h.runs.sound hs
  have hq : Managed (tablePath virt) := managed_of_init hreg (prefix_refl _)
  have hfresh : m'.Sees (tablePath virt) :=
    h.runs.sees hq (fun p i hmem => absurd hmem h.onPath.not_cut) (hsee _ (prefix_refl _))
  obtain ⟨f, hf⟩ := h.there
  have hleaf : leafAt m.mem m.root (tablePath virt) (index 0 virt) = m'.mem f (index 0 virt) := by
    have hsame := h.runs.edits.leaves hs (j := index 0 virt) hreg rfl
    rw [h.onPath.leaves] at hsame
    rw [← hsame, ← h.runs.root, leafAt, hf]
    rfl
  rw [readEntry_eq hs' hq hfresh hf, bind_some]
  by_cases hpres : isPresent (m'.mem f (index 0 virt)) = true
  · rw [if_pos hpres]
    refine ⟨_, _, _, rfl, h.runs.trans (Runs.touch m' _), ?_⟩
    rw [append_nil]
    refine .error h.onPath ?_
    by_cases hls : ls = []
    · exact .inr ⟨hls, by rw [hleaf]; exact hpres⟩
    · exact .inl (h.missing hls)
  · rw [if_neg hpres]
    rw [Bool.not_eq_true] at hpres
    have hzero : m'.mem f (index 0 virt) = 0#64 := hs'.clean (hreg.append _) hq.2 hf hpres
    have hmod := modifyEntry_eq (m := m'.touch (tablePtrOf (tablePath virt))) hs' hq (hfresh.touch _) hf
      (index 0 virt) fun e => setPage e phys (leafFlags flags)
    have hcell : (m'.touch (tablePtrOf (tablePath virt))).mem f (index 0 virt) = 0#64 := hzero
    rw [hcell] at hmod
    rw [hmod]
    have hdoes : Does m'.root (.leaf (tablePath virt) (index 0 virt) (setPage 0#64 phys (leafFlags flags)))
        m'.toSpace _ := .leaf hreg rfl hf (Or.inl ⟨hpres, isPresent_setPage ..⟩)
    refine ⟨_, _, _, rfl, ?_, .ok h.onPath h.user h.missing (by rw [hleaf]; exact hpres)⟩
    have htouch := (Runs.touch m' (tablePtrOf (tablePath virt))).trans
      (Runs.touch _ (tablePtrOf (tablePath virt)))
    have hedit := Runs.edit (m := (m'.touch (tablePtrOf (tablePath virt))).touch
      (tablePtrOf (tablePath virt))) hs' hdoes
    have hlast := (htouch.trans hedit).trans (Runs.invlpg _ virt)
    exact h.runs.trans hlast

/-- **`map_page_hw`**: tables are linked down to the PT, and then its entry is set or there is an error. -/
theorem mapPageHw_cases {virt : Nat} (hs : m.Sound) (hreg : Regular (tablePath virt))
    (hsee : ∀ q, q <+: tablePath virt → m.Sees q) (phys : Nat) (flags : Entry) :
    ∃ r cs m', mapPageHw m virt phys flags = some (r, m') ∧ Runs m cs m' ∧
      PageMapped m virt phys flags r cs := by
  have h0 : Reached m virt flags [] [] m :=
    ⟨Runs.refl m, nofun, nofun, ⟨m.root, rfl⟩,
      fun hne => absurd rfl hne⟩
  unfold mapPageHw
  refine ensure_step hs hreg hsee h0 rfl ⟨[index 2 virt, index 1 virt], rfl⟩ _ fun h1 => ?_
  refine ensure_step hs hreg hsee h1 rfl ⟨[index 1 virt], rfl⟩ _ fun h2 => ?_
  exact ensure_step hs hreg hsee h2 rfl (prefix_refl _) _ (setLeaf_cases hs hreg hsee)

/-! ## `unmap_page_hw` -/

section Unmap

variable {m : Machine mmu} {virt : Nat}

/-- A check on the way down, after others. -/
theorem requirePresent_eq {m₁ : Machine mmu} (hs : m.Sound) (h : Runs m [] m₁) (hq : Managed q) (hsee : m.Sees q)
    (hf : tableAt m.mem m.root q = some f) (hpres : isPresent (m.mem f i) = true) :
    requirePresent m₁ (tablePtrOf q) i = some (.ok (), m₁.touch (tablePtrOf q)) ∧
      Runs m [] (m₁.touch (tablePtrOf q)) := by
  refine ⟨?_, h.trans (Runs.touch m₁ _)⟩
  rw [requirePresent, readEntry_eq (h.sound hs) hq (h.sees hq (by simp) hsee) (h.keeps hs hq.inner (by simp) hf),
    map_some, h.mem_eq, if_pos hpres]

/-- Cuts of tables on the way to `virt`, all of them gone at the end. -/
structure Trims (virt : Nat) (cs : List Edit) (m' : Machine mmu) : Prop where
  cuts : ∀ c ∈ cs, ∃ p i, c = .cut p i ∧ p ++ [i] <+: tablePath virt
  gone : ∀ p i, Edit.cut p i ∈ cs → tableAt m'.mem m'.root (p ++ [i]) = none

theorem Trims.nil (m' : Machine mmu) : Trims virt [] m' :=
  ⟨nofun, nofun⟩

/-- One level of trimming: the table stays, or it is empty and is cut. -/
theorem trimTable_cases (hs : m.Sound) (hq : q = p ++ [i]) (hreg : Regular q) (hlen : q.length ≤ 3)
    (hp : Managed p) (hsee : ∀ r, r <+: q → m.Sees r) (hf : tableAt m.mem m.root q = some f)
    (above : Machine mmu → Option (Machine mmu)) :
    ∃ m', (trimTable m (tablePtrOf q) (tablePtrOf p) i above = some m' ∧ Runs m [] m') ∨
      (trimTable m (tablePtrOf q) (tablePtrOf p) i above = above m' ∧ Runs m [.cut p i] m') := by
  have hpre : p <+: q := ⟨[i], hq.symm⟩
  have hplen : p.length ≤ 2 := by
    rw [hq, length_append, length_singleton] at hlen
    omega
  obtain ⟨g, hg⟩ := tableAt_of_init hpre hf
  unfold trimTable
  rw [Machine.hasAnyPresentEntries, access_eq hs ⟨Or.inr hreg, hlen⟩ (hsee q (prefix_refl q)) hf, map_some, bind_some]
  by_cases hany : ((finRange 512).any fun i => isPresent (m.mem f i)) = true
  · rw [if_pos hany]
    exact ⟨_, Or.inl ⟨rfl, Runs.touch m _⟩⟩
  · rw [if_neg hany]
    have hempty : ∀ j, isPresent (m.mem f j) = false := by
      intro j
      rw [Bool.not_eq_true, List.any_eq_false] at hany
      simpa using hany j (mem_finRange j)
    have hmod := modifyEntry_eq (m := m.touch (tablePtrOf q)) hs hp ((hsee p hpre).touch _) hg i
    rw [hmod]
    have hdoes : Does m.root (.cut p i) m.toSpace { m.toSpace with mem := store m.mem g i 0#64 } :=
      .cut (hq ▸ hreg) hplen hg (hq ▸ hf) hempty
    refine ⟨_, Or.inr ⟨rfl, ?_⟩⟩
    have hedit := Runs.edit (m := (m.touch (tablePtrOf q)).touch (tablePtrOf p)) hs hdoes
    exact ((Runs.touch m _).trans (Runs.touch _ _)).trans hedit

/-- Cuts take no frames and change no PT entry. -/
theorem Trims.leaves {cs : List Edit} {m' : Machine mmu} (h : Trims virt cs m') :
    links cs = 0 ∧ ∀ l, cs.foldl (fun l c => c.onLeaves l) l = l := by
  have hcuts := h.cuts
  clear h
  induction cs with
  | nil => exact ⟨rfl, fun l => rfl⟩
  | cons c cs ih =>
    obtain ⟨p, i, rfl, -⟩ := hcuts c (mem_cons_self ..)
    exact ih fun c hc => hcuts c (mem_cons_of_mem _ hc)

/-- Trimming from the table at `q` upwards. -/
def TrimsFrom (mmu : Mmu) (virt : Nat) (q : List Index) (trim : Machine mmu → Option (Machine mmu)) : Prop :=
  ∀ m : Machine mmu, m.Sound → (∀ r, r <+: q → m.Sees r) → (∃ f, tableAt m.mem m.root q = some f) →
    ∃ cs m', trim m = some m' ∧ Runs m cs m' ∧ Trims virt cs m'

theorem trimsFrom_level (hreg : Regular (tablePath virt)) (hq : q = p ++ [i]) (hpre : q <+: tablePath virt)
    {above : Machine mmu → Option (Machine mmu)} (habove : TrimsFrom mmu virt p above) :
    TrimsFrom mmu virt q fun m => trimTable m (tablePtrOf q) (tablePtrOf p) i above := by
  rintro m hs hsee ⟨f, hf⟩
  have hpq : p <+: q := ⟨[i], hq.symm⟩
  have hp : Managed p := managed_of_init hreg (hpq.trans hpre)
  have hqm : Managed q := managed_of_init hreg hpre
  have hqreg : Regular q := hreg.of_init hpre (by rw [hq]; simp)
  obtain ⟨m₁, ⟨hcall, hruns⟩ | ⟨hcall, hruns⟩⟩ := trimTable_cases hs hq hqreg hqm.2 hp hsee hf above
  · exact ⟨[], m₁, hcall, hruns, Trims.nil m₁⟩
  · -- everything above the table that was cut is as before
    have hother : ∀ r, r <+: p → ∀ p' i', Edit.cut p' i' ∈ [Edit.cut p i] → r ≠ p' ++ [i'] := by
      intro r hr p' i' hmem heq
      cases mem_singleton.mp hmem
      have hle := hr.length_le
      rw [heq, length_append, length_singleton] at hle
      omega
    obtain ⟨g, hg⟩ := tableAt_of_init hpq hf
    obtain ⟨cs, m', hrest, hruns', htrims⟩ := habove m₁ (hruns.sound hs)
      (fun r hr => hruns.sees (managed_of_init hreg (hr.trans (hpq.trans hpre))) (hother r hr)
        (hsee r (hr.trans hpq)))
      ⟨g, hruns.keeps hs hp.inner (hother p (prefix_refl p)) hg⟩
    refine ⟨.cut p i :: cs, m', hcall.trans hrest, hruns.trans hruns', ?_, ?_⟩
    · intro c hc
      rcases mem_cons.mp hc with rfl | hc
      · exact ⟨p, i, rfl, hq ▸ hpre⟩
      · exact htrims.cuts c hc
    · intro p' i' hc
      rcases mem_cons.mp hc with heq | hc
      · cases heq
        refine eq_none_iff_forall_ne_some.mpr fun f' hf' => ?_
        rw [hruns'.root] at hf'
        have hold := hruns'.edits.old_of_no_links (hruns.sound hs) htrims.leaves.1 (hq ▸ hqm.inner) hf'
        rw [hruns.tables hs (hq ▸ hqm.inner)] at hold
        exact some_ne_none f' (hold.symm.trans (if_pos rfl))
      · exact htrims.gone p' i' hc

/-- `unmap_page_hw` with its pointers named by paths. -/
theorem unmapPageHw_eq (m : Machine mmu) (virt : Nat) :
    unmapPageHw m virt =
      andThen (requirePresent m (tablePtrOf []) (index 3 virt)) fun _ m =>
      andThen (requirePresent m (tablePtrOf [index 3 virt]) (index 2 virt)) fun _ m =>
      andThen (requirePresent m (tablePtrOf [index 3 virt, index 2 virt]) (index 1 virt)) fun _ m =>
      andThen (requirePresent m (tablePtrOf (tablePath virt)) (index 0 virt)) fun _ m =>
      (m.modifyEntry (tablePtrOf (tablePath virt)) (index 0 virt) fun _ => 0#64).bind fun m =>
      (trimTable (m.invlpg virt) (tablePtrOf (tablePath virt))
          (tablePtrOf [index 3 virt, index 2 virt]) (index 1 virt) fun m =>
        trimTable m (tablePtrOf [index 3 virt, index 2 virt]) (tablePtrOf [index 3 virt]) (index 2 virt)
          fun m => trimTable m (tablePtrOf [index 3 virt]) (tablePtrOf []) (index 3 virt) some).map
        fun m => (.ok (), m) := rfl

/-- **`unmap_page_hw`** of a page that is mapped: its entry is cleared and empty tables are cut. -/
theorem unmapPageHw_spec (hs : m.Sound) (hreg : Regular (tablePath virt))
    (hsee : ∀ q, q <+: tablePath virt → m.Sees q)
    (hpres : isPresent (leafAt m.mem m.root (tablePath virt) (index 0 virt)) = true) :
    ∃ cs m', unmapPageHw m virt = some (.ok (), m') ∧
      Runs m (.leaf (tablePath virt) (index 0 virt) 0#64 :: cs) m' ∧ Trims virt cs m' := by
  -- the page is mapped, so its tables and their entries are there
  obtain ⟨f, hf⟩ : ∃ f, tableAt m.mem m.root (tablePath virt) = some f := by
    cases hf : tableAt m.mem m.root (tablePath virt) with
    | none => simp [leafAt, hf] at hpres
    | some f => exact ⟨f, rfl⟩
  have hentry : isPresent (m.mem f (index 0 virt)) = true := by
    simpa [leafAt, hf] using hpres
  have hinner : ∀ {p : List Index} {i : Index}, p ++ [i] <+: tablePath virt →
      ∃ g, tableAt m.mem m.root p = some g ∧ isPresent (m.mem g i) = true := by
    intro p i hpre
    obtain ⟨g', hg'⟩ := tableAt_of_init hpre hf
    rw [tableAt_concat] at hg'
    obtain ⟨g, hg, hedge⟩ := bind_eq_some_iff.mp hg'
    exact ⟨g, hg, (edges_eq_some hedge).1⟩
  have hq : Managed (tablePath virt) := managed_of_init hreg (prefix_refl _)
  obtain ⟨f3, hf3, hp3⟩ := hinner (p := []) ⟨[index 2 virt, index 1 virt], rfl⟩
  obtain ⟨f2, hf2, hp2⟩ := hinner (p := [index 3 virt]) ⟨[index 1 virt], rfl⟩
  obtain ⟨f1, hf1, hp1⟩ := hinner (p := [index 3 virt, index 2 virt]) ⟨[], rfl⟩
  have hpre2 : [index 3 virt] <+: tablePath virt := ⟨[index 2 virt, index 1 virt], rfl⟩
  have hpre1 : [index 3 virt, index 2 virt] <+: tablePath virt := ⟨[index 1 virt], rfl⟩
  obtain ⟨hcall3, hr3⟩ := requirePresent_eq hs (Runs.refl m) (managed_of_init hreg nil_prefix)
    (hsee _ nil_prefix) hf3 hp3
  obtain ⟨hcall2, hr2⟩ := requirePresent_eq hs hr3 (managed_of_init hreg hpre2) (hsee _ hpre2) hf2 hp2
  obtain ⟨hcall1, hr1⟩ := requirePresent_eq hs hr2 (managed_of_init hreg hpre1) (hsee _ hpre1) hf1 hp1
  obtain ⟨hcall0, hr0⟩ := requirePresent_eq hs hr1 hq (hsee _ (prefix_refl _)) hf hentry
  rw [unmapPageHw_eq, hcall3, andThen_ok, hcall2, andThen_ok, hcall1, andThen_ok, hcall0, andThen_ok]
  generalize (((m.touch _).touch _).touch _).touch _ = m0 at hr0 ⊢
  have hs0 := hr0.sound hs
  have hf0 := hr0.keeps hs hq.inner (by simp) hf
  rw [modifyEntry_eq hs0 hq (hr0.sees hq (by simp) (hsee _ (prefix_refl _))) hf0, bind_some]
  have hdoes : Does m0.root (.leaf (tablePath virt) (index 0 virt) 0#64) m0.toSpace
      { m0.toSpace with mem := store m0.mem f _ 0#64 } :=
    .leaf hreg rfl hf0 (Or.inr ⟨by rw [hr0.mem_eq]; exact hentry, rfl⟩)
  have hr5 := ((hr0.trans (Runs.touch m0 _)).trans
    (Runs.edit (m := m0.touch (tablePtrOf (tablePath virt))) hs0 hdoes)).trans (Runs.invlpg _ virt)
  have hnocut : ∀ q p i, Edit.cut p i ∈ [Edit.leaf (tablePath virt) (index 0 virt) 0#64] → q ≠ p ++ [i] :=
    fun q p i hmem => absurd hmem (by simp)
  have htrim3 := trimsFrom_level hreg rfl hpre2 (show TrimsFrom mmu virt [] some from
    fun m _ _ _ => ⟨[], m, rfl, .refl m, .nil m⟩)
  have htrim2 := trimsFrom_level hreg rfl hpre1 htrim3
  have htrim := trimsFrom_level hreg rfl (prefix_refl _) htrim2
  obtain ⟨cs, m', hcall, hruns, htrims⟩ := htrim _ (hr5.sound hs)
    (fun r hr => hr5.sees (managed_of_init hreg hr) (hnocut r) (hsee r hr))
    ⟨f, hr5.keeps hs hq.inner (hnocut _) hf⟩
  refine ⟨cs, m', ?_, hr5.trans hruns, htrims⟩
  exact congrArg _ hcall

end Unmap

/-! ## `translate_hw` -/

section LookUp

variable {m : Machine Mmu.walker} {q rest : List Index} {F : Nat → Nat}
  {next : Entry → Machine Mmu.walker → Option (Option Nat × Machine Mmu.walker)}

/-- One level, with a coherent cache. -/
theorem descend_follow (hq : m.pages (tablePtrOf q / 4096) = EdgeTree.walk (follow m.mem) m.root q)
    (hf : EdgeTree.walk (follow m.mem) m.root q = some f)
    (hnext : EdgeTree.walk (follow m.mem) m.root (q ++ [i]) = some (frame (m.mem f i)) →
      next (m.mem f i) m = some ((EdgeTree.walk (follow m.mem) (frame (m.mem f i)) rest).map F, m)) :
    descend m (tablePtrOf q) i next = some ((EdgeTree.walk (follow m.mem) f (i :: rest)).map F, m) := by
  have haccess : m.access (tablePtrOf q) = (m.pages (tablePtrOf q / 4096)).map fun f => (f, m) := rfl
  rw [descend, Machine.readEntry, haccess, hq, hf, EdgeTree.walk_cons]
  simp only [map_some, bind_some]
  by_cases hp : isPresent (m.mem f i) = true
  · have hg : follow m.mem f i = some (frame (m.mem f i)) := if_pos hp
    rw [if_pos hp, hnext (by rw [EdgeTree.walk_concat, hf, bind_some, hg]), hg]; rfl
  · rw [if_neg hp, follow, if_neg hp]; rfl

/-- **`translate_hw`** follows four entries, whatever the huge bit of the third says. -/
theorem translateHw_spec (h : Recursive m.mem m.root)
    (hsmall : ∀ q g i, q ++ [i] <+: [index 3 virt, index 2 virt] → tableAt m.mem m.root q = some g →
      isHuge (m.mem g i) = false) :
    translateHw m virt =
      some ((EdgeTree.walk (follow m.mem) m.root (path virt)).map (· * 4096 + virt % 4096), m) := by
  have hpages : ∀ (q : List Index) (i : Index), q <+: [index 3 virt, index 2 virt] →
      m.pages (tablePtrOf (q ++ [i]) / 4096) = EdgeTree.walk (follow m.mem) m.root (q ++ [i]) :=
    fun q i hq => h.pages_concat hq.length_le i fun p g j hpre => hsmall p g j (hpre.trans hq)
  have hpml4 : m.pages (tablePtrOf [] / 4096) = some m.root :=
    h.pages (by simp) fun q g i hpre => by simp at hpre
  unfold translateHw path
  refine descend_follow (q := []) hpml4 rfl fun h3 => ?_
  refine descend_follow (q := [index 3 virt]) (hpages [] _ nil_prefix) h3 fun h2 => ?_
  refine descend_follow (q := [index 3 virt, index 2 virt]) (hpages [_] _ ⟨[_], rfl⟩) h2 fun h1 => ?_
  refine descend_follow (q := tablePath virt) (hpages [_, _] _ (prefix_refl _)) h1 fun _ => ?_
  have hoff : (levelIndices virt).off = virt % 4096 := Nat.and_two_pow_sub_one_eq_mod virt 12
  rw [EdgeTree.walk_nil, map_some, frame_mul, hoff]

end LookUp

end Saios.Vmm
