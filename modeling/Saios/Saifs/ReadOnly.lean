/-
  READ-ONLY MOUNTS of SAIFS: what an action on a path below one can change.

  1. **The VFS's state** only moves by calls of the VFS (`Moves`), so what holds in every state of the VFS holds
     below SAIFS (`act_reachable`).

  2. **Looking up changes nothing** (`lookup_keeps`), and creating and removing ask for `read_only` first
     (`ask_refused`).

  3. **Writing through a handle does not ask.**  It leaves everything as it was when the VFS would not open the
     path for writing (`write_refused`); `handle_writes_read_only` is the other case.
-/
import Saios.Mounts.ReadOnly
import Saios.Saifs.Namespace
import Saios.Saifs.Resolver

namespace Saios.Saifs

open Path Vfs Option

/-! ## Moves of the VFS -/

/-- Calls of the VFS lead from `w` to `w'`. -/
def Moves (w w' : World) : Prop := ∃ calls : List Call, calls.foldl Vfs.step (some w) = some w'

theorem Moves.refl (w : World) : Moves w w := ⟨[], rfl⟩

variable {w : World}

theorem Moves.trans {u v : World} (h : Moves u v) (h' : Moves v w) : Moves u w := by
  obtain ⟨calls, hcalls⟩ := h
  obtain ⟨calls', hcalls'⟩ := h'
  exact ⟨calls ++ calls', by rw [List.foldl_append, hcalls, hcalls']⟩

theorem moves_exec (call : Call) {r : Reply × World} (h : exec w call = some r) : Moves w r.2 := by
  refine ⟨[call], ?_⟩
  show (exec w call).map Prod.snd = some r.2
  rw [h]
  rfl

variable {α : Type}

theorem moves_reply (call : Call) {o : Option (Except String α × World)} {ok : α → Reply}
    (hcall : exec w call = o.map (reply ok)) {r : Except String α × World} (h : o = some r) :
    Moves w r.2 := by
  rw [h] at hcall
  exact moves_exec call hcall

theorem Moves.reachable {w' : World} (h : Moves w w') (hw : Vfs.Reachable w) : Vfs.Reachable w' := by
  obtain ⟨calls, hcalls⟩ := h
  obtain ⟨devices, env, events, hrun⟩ := hw
  refine ⟨devices, env, events ++ calls.map .call, ?_⟩
  rw [List.foldl_append, hrun, List.foldl_map]
  exact hcalls

/-! ## Requests to a provider -/

variable {path : Str} {refused : ResolvedPath → Bool}

section requests

variable {τ : Type} {m : Machine τ}
  {request : Machine τ → Str → Provider τ → Option (Except SaifsError α × Machine τ)}

variable {r : Except SaifsError α × Machine τ}

/-- Everything a request to the namespace manager can come to. -/
theorem ask_cases (h : m.ask path refused request = some r) :
    (∃ e, r = (.error e, m.init)) ∨ ∃ resolved provider, m.resolve path = .ok resolved ∧ refused resolved = false ∧
      providerByIdInternal m.init.saifs resolved.provider = some provider ∧
      request m.init resolved.providerPath provider = some r := by
  unfold Machine.ask at h
  split at h
  · cases h
    exact .inl ⟨_, rfl⟩
  · next resolved hresolve =>
    split at h
    · cases h
      exact .inl ⟨_, rfl⟩
    · next hopen =>
      split at h
      · cases h
        exact .inl ⟨_, rfl⟩
      · next provider hprovider =>
        exact .inr ⟨resolved, provider, hresolve, Bool.eq_false_of_not_eq_true hopen, hprovider, h⟩

/-- A refused request changes nothing. -/
theorem ask_refused {resolved : ResolvedPath} (hresolve : m.resolve path = .ok resolved)
    (hrefused : refused resolved = true) :
    m.ask path refused request = some (.error .accessDenied, m.init) := by
  unfold Machine.ask
  rw [hresolve]
  exact if_pos hrefused

theorem viaVfs_moves {o : Option (Except SaifsError α × World)} (h : m.viaVfs o = some r)
    (hmoves : ∀ q, o = some q → Moves m.world q.2) : Moves m.world r.2.world := by
  obtain ⟨q, hq, rfl⟩ := map_eq_some_iff.mp h
  exact hmoves q hq

variable {metadata : Str → Option Nat}

theorem vfsCreate_moves {kind : CreateKind} {r : Except SaifsError Nat × World}
    (h : vfsCreate metadata w path kind = some r) : Moves w r.2 := by
  obtain ⟨q, hq, rfl⟩ := map_eq_some_iff.mp h
  cases kind with
  | file => exact moves_reply (.touch (normalizePath path)) rfl hq
  | directory => exact moves_reply (.mkdir (normalizePath path)) rfl hq

theorem ask_moves (h : m.ask path refused request = some r)
    (hrequest : ∀ path provider, request m.init path provider = some r → Moves m.world r.2.world) :
    Moves m.world r.2.world := by
  rcases ask_cases h with ⟨e, rfl⟩ | ⟨resolved, provider, -, -, -, hanswer⟩
  · exact .refl m.world
  · exact hrequest _ provider hanswer

theorem create_moves {kind : CreateKind} {r : Except SaifsError Nat × Machine τ}
    (h : m.create path kind = some r) : Moves m.world r.2.world := by
  refine ask_moves h fun path provider hanswer => ?_
  cases provider with
  | vfs => exact viaVfs_moves (m := m.init) hanswer fun _ => vfsCreate_moves
  | other provider =>
    cases hanswer
    exact .refl m.world

theorem remove_moves {r : Except SaifsError Unit × Machine τ} (h : m.remove path = some r) :
    Moves m.world r.2.world := by
  refine ask_moves h fun path provider hanswer => ?_
  cases provider with
  | vfs =>
    refine viaVfs_moves (m := m.init) hanswer fun _ h => ?_
    obtain ⟨q, hq, rfl⟩ := map_eq_some_iff.mp h
    exact moves_reply (.unlink _) rfl hq
  | other provider =>
    cases hanswer
    exact .refl m.world

/-! ## Looking up -/

/-- Looking a node up changes nothing. -/
theorem openNode_keeps (hw : Storage.Wired w.storage) {r : Except String VNode × World}
    (hr : openNode w path = some r) : r.2 = w := by
  obtain ⟨abs, -, hr⟩ := bind_eq_some_iff.mp hr
  have hsame : ∀ {st : Storage.StorageState}, st = w.storage → { w with storage := st } = w := by
    rintro _ rfl
    rfl
  split at hr
  · have hstate : (Storage.fsStat w.storage abs).2 = w.storage := hw.step_reads.2.1
    split at hr
    · next hstat =>
      rw [hstat] at hstate
      cases hr
      exact hsame hstate
    · next hstat =>
      rw [hstat] at hstate
      cases hr
      exact hsame hstate
  · cases hr
    rfl

theorem vfsLookup_keeps (hw : Storage.Wired w.storage) {r : Except SaifsError LookupResult × World}
    (h : vfsLookup metadata w path = some r) : r.2 = w := by
  unfold vfsLookup at h
  dsimp only at h
  split at h
  · cases h
    rfl
  · split at h
    · cases h
      rfl
    · obtain ⟨q, hq, rfl⟩ := map_eq_some_iff.mp h
      exact openNode_keeps hw hq

theorem lookup_keeps (hw : Storage.Wired m.world.storage) {r : Except SaifsError LookupResult × Machine τ}
    (h : m.lookup path = some r) : r.2 = m.init := by
  rcases ask_cases h with ⟨e, rfl⟩ | ⟨resolved, provider, -, -, -, hanswer⟩
  · rfl
  cases provider with
  | vfs =>
    obtain ⟨q, hq, rfl⟩ := map_eq_some_iff.mp hanswer
    have hkeeps : q.2 = m.init.world := vfsLookup_keeps hw hq
    rw [hkeeps]
  | other provider =>
    cases hanswer
    rfl

theorem Machine.init_init (m : Machine τ) : m.init.init = m.init := by
  have hdone : m.init.saifs.initialized = true := by
    show (Saifs.init _ _ m.saifs).initialized = true
    unfold Saifs.init
    split
    · assumption
    · rfl
  exact congrArg (fun s => { m.init with saifs := s }) (init_eq hdone)

/-- A handle on a resolved path. -/
def SaifsHandle.On (h : SaifsHandle) (resolved : ResolvedPath) : Prop :=
  h.path = resolved.absolutePath ∧ h.providerPath = resolved.providerPath ∧ h.providerId = resolved.provider

/-- Opening a handle takes a handle id and changes nothing else. -/
theorem openHandle_cases (hw : Storage.Wired m.world.storage) {r : Except SaifsError SaifsHandle × Machine τ}
    (h : m.openHandle path = some r) :
    (∃ e, r = (.error e, m.init)) ∨ ∃ resolved handle n, m.resolve path = .ok resolved ∧ handle.On resolved ∧
      r = (.ok handle, { m.init with saifs := { m.init.saifs with nextHandleId := n } }) := by
  unfold Machine.openHandle at h
  split at h
  · cases h
    exact .inl ⟨_, rfl⟩
  · next resolved hresolve =>
    obtain ⟨⟨found, m'⟩, hlookup, rfl⟩ := map_eq_some_iff.mp h
    obtain rfl : m' = m.init := (lookup_keeps (m := m.init) hw hlookup).trans m.init_init
    cases found with
    | error e => exact .inl ⟨e, rfl⟩
    | ok found => exact .inr ⟨resolved, _, _, hresolve, ⟨rfl, rfl, rfl⟩, rfl⟩

end requests

/-! ## Writing through a handle -/

/-- The VFS would open the path for writing. -/
def Writable (w : World) (path : Str) : Prop := ∃ fs i n, Openable w path .readWriteCreate fs i n

variable {r : Except SaifsError Nat × SaifsHandle × World}

section handle

variable {h : SaifsHandle} {w : World} {data : List UInt8}

theorem put_moves (fd : Nat) : Moves w (h.put w fd data).2 := by
  have hsought : Moves w (Vfs.seek w fd (.start h.offset)).2 := moves_exec (.seek fd _) rfl
  unfold SaifsHandle.put
  split
  · next hseek =>
    rw [hseek] at hsought
    exact hsought
  · next v hseek =>
    rw [hseek] at hsought
    exact hsought.trans (moves_exec (.write fd data) rfl)

theorem putAndClose_world (fd : Nat) : (h.putAndClose w fd data).2 = (Vfs.close (h.put w fd data).2 fd).2 := by
  unfold SaifsHandle.putAndClose
  dsimp only
  split
  · rfl
  · rfl
  · rfl

/-- Everything a write through a handle can do to the VFS. -/
theorem write_cases (hr : h.write w data = some r) :
    (∃ e w', Vfs.openFile w h.path .readWriteCreate = some (.error e, w') ∧ r = (.error (mapStrErr e), h, w')) ∨
      ∃ fd w', Vfs.openFile w h.path .readWriteCreate = some (.ok fd, w') ∧ r.1 = (h.putAndClose w' fd data).1 ∧
        r.2.2 = (Vfs.close (h.put w' fd data).2 fd).2 := by
  obtain ⟨⟨q, w'⟩, hopen, rfl⟩ := map_eq_some_iff.mp hr
  cases q with
  | error e => exact .inl ⟨e, w', hopen, rfl⟩
  | ok fd =>
    refine .inr ⟨fd, w', hopen, ?_⟩
    rw [← putAndClose_world]
    dsimp only
    split
    · next hput =>
      rw [hput]
      exact ⟨rfl, rfl⟩
    · next hput =>
      rw [hput]
      exact ⟨rfl, rfl⟩

theorem write_moves (hr : h.write w data = some r) : Moves w r.2.2 := by
  rcases Saifs.write_cases hr with ⟨e, w', hopen, rfl⟩ | ⟨fd, w', hopen, -, hworld⟩
  · exact moves_reply (.openFile h.path .readWriteCreate) rfl hopen
  · rw [hworld]
    refine Moves.trans (moves_reply (.openFile h.path .readWriteCreate) rfl hopen) ?_
    exact (put_moves fd).trans (moves_exec (.close fd) rfl)

/-- **Where the VFS would not open the path, nothing changes.** -/
theorem write_refused (hlinked : Linked w.vfs.fs) (hno : ¬Writable w h.path) (hr : h.write w data = some r) :
    ∃ e, r = (.error e, h, w) := by
  obtain ⟨q, hopen, -⟩ := map_eq_some_iff.mp hr
  obtain ⟨abs, habs, -⟩ := bind_eq_some_iff.mp hopen
  obtain ⟨e, he⟩ := (openable_or_refused hlinked habs _).resolve_left hno
  rcases Saifs.write_cases hr with ⟨e', w', hopen, rfl⟩ | ⟨fd, w', hopen, -⟩
  · rw [he] at hopen
    cases hopen
    exact ⟨_, rfl⟩
  · rw [he] at hopen
    cases hopen

end handle

/-! ## Runs -/

section runs

variable {τ : Type}

/-- The path an action is on. -/
def Machine.pathOf (m : Machine τ) : Action → Option Str
  | .create path _ => some path
  | .remove path => some path
  | .mkdir path => some path
  | .touch path => some path
  | .openHandle path => some path
  | .write k _ => m.handles[k]?.map (·.path)

/-- The path resolves to a read-only mount. -/
def Machine.ReadOnlyAt (m : Machine τ) (path : Str) : Prop :=
  ∃ resolved, m.resolve path = .ok resolved ∧ resolved.readOnly = true

/-- On a path below a read-only mount, the action leaves the VFS and every other provider as they were. -/
def Spared (m : Option (Machine τ)) (action : Action) : Prop :=
  ∀ u path v, m = some u → u.pathOf action = some path → u.ReadOnlyAt path → u.act action = some v →
    v.world = u.world ∧ v.others = u.others

/-- The action is not a write through a handle to a path below a read-only mount that the VFS would open. -/
def Refused (m : Option (Machine τ)) (action : Action) : Prop :=
  ∀ u k data h, m = some u → action = .write k data → u.handles[k]? = some h → u.ReadOnlyAt h.path →
    ¬Writable u.world h.path

/-- **The VFS below SAIFS only moves by its own calls.** -/
theorem act_reachable {m m' : Machine τ} (hm : Vfs.Reachable m.world) {action : Action}
    (h : m.act action = some m') : Vfs.Reachable m'.world := by
  cases action with
  | create path kind =>
    obtain ⟨r, hr, rfl⟩ := map_eq_some_iff.mp h
    exact (create_moves hr).reachable hm
  | remove path =>
    obtain ⟨r, hr, rfl⟩ := map_eq_some_iff.mp h
    exact (remove_moves hr).reachable hm
  | mkdir path =>
    obtain ⟨q, hq, rfl⟩ := map_eq_some_iff.mp h
    obtain ⟨r, hr, rfl⟩ := map_eq_some_iff.mp hq
    exact (create_moves hr).reachable hm
  | touch path =>
    obtain ⟨q, hq, rfl⟩ := map_eq_some_iff.mp h
    obtain ⟨r, hr, rfl⟩ := map_eq_some_iff.mp hq
    exact (create_moves hr).reachable hm
  | openHandle path =>
    obtain ⟨r, hr, rfl⟩ := map_eq_some_iff.mp h
    rcases openHandle_cases (Mounts.wired_reachable hm).2 hr with ⟨e, rfl⟩ | ⟨_, _, _, -, -, rfl⟩
    · exact hm
    · exact hm
  | write k data =>
    unfold Machine.act at h
    dsimp only at h
    split at h
    · cases h
      exact hm
    · obtain ⟨r, hr, rfl⟩ := map_eq_some_iff.mp h
      exact (write_moves hr).reachable hm

/-- One action. -/
theorem spared_of_refused {m : Option (Machine τ)} (hm : ∀ u, m = some u → Vfs.Reachable u.world)
    {action : Action} (h : Refused m action) : Spared m action := by
  rintro u path v rfl hpath hro hact
  have hu := hm u rfl
  have hmade : ∀ kind r, u.create path kind = some r → r.2.world = u.world ∧ r.2.others = u.others := by
    intro kind r hr
    obtain ⟨resolved, hresolve, hflag⟩ := hro
    obtain rfl := mem_unique hr (ask_refused hresolve hflag)
    exact ⟨rfl, rfl⟩
  cases action with
  | create p kind =>
    obtain rfl : p = path := some.inj hpath
    obtain ⟨r, hr, rfl⟩ := map_eq_some_iff.mp hact
    exact hmade kind r hr
  | mkdir p =>
    obtain rfl : p = path := some.inj hpath
    obtain ⟨q, hq, rfl⟩ := map_eq_some_iff.mp hact
    obtain ⟨r, hr, rfl⟩ := map_eq_some_iff.mp hq
    exact hmade .directory r hr
  | touch p =>
    obtain rfl : p = path := some.inj hpath
    obtain ⟨q, hq, rfl⟩ := map_eq_some_iff.mp hact
    obtain ⟨r, hr, rfl⟩ := map_eq_some_iff.mp hq
    exact hmade .file r hr
  | remove p =>
    obtain rfl : p = path := some.inj hpath
    obtain ⟨r, hr, rfl⟩ := map_eq_some_iff.mp hact
    obtain ⟨resolved, hresolve, hflag⟩ := hro
    obtain rfl := mem_unique hr (ask_refused hresolve hflag)
    exact ⟨rfl, rfl⟩
  | openHandle p =>
    obtain ⟨r, hr, rfl⟩ := map_eq_some_iff.mp hact
    rcases openHandle_cases (Mounts.wired_reachable hu).2 hr with ⟨e, rfl⟩ | ⟨_, _, _, -, -, rfl⟩
    · exact ⟨rfl, rfl⟩
    · exact ⟨rfl, rfl⟩
  | write k data =>
    obtain ⟨handle, hk, rfl⟩ := map_eq_some_iff.mp hpath
    unfold Machine.act at hact
    dsimp only at hact
    rw [hk] at hact
    obtain ⟨r, hr, rfl⟩ := map_eq_some_iff.mp hact
    have hno := h u k data handle rfl rfl hk hro
    obtain ⟨e, rfl⟩ := write_refused (Mounts.wired_reachable hu).1.sys.linked hno hr
    exact ⟨rfl, rfl⟩

/-- **No action on a path below a read-only mount changes anything**, in every run in which no handle there is
    written to while the VFS would open its path for writing. -/
theorem read_only_spared (m : Machine τ) (hm : Vfs.Reachable m.world) (actions : List Action)
    (h : Run.Along actStep Refused (some m) actions) : Run.Along actStep Spared (some m) actions := by
  have hboth : Run.Along actStep (fun s a => Refused s a ∧ Spared s a) (some m) actions := by
    refine (Run.along_iff_along (I := fun s => ∀ u, s = some u → Vfs.Reachable u.world) ?_ ?_ ?_ actions).mpr h
    · exact fun s a hs => ⟨And.left, fun href => ⟨href, spared_of_refused hs href⟩⟩
    · intro s a hs _ v hv
      obtain ⟨u, rfl, hu⟩ := Option.bind_eq_some_iff.mp hv
      exact act_reachable (hs u rfl) hu
    · intro u hu
      obtain rfl := Option.some.inj hu
      exact hm
  exact hboth.mono fun _ _ hstep => hstep.2

end runs

/-- A provider that finds a file everywhere and makes and removes none. -/
def plain : NamespaceProvider Unit where
  name := "plain".toList
  lookup _ _ := .ok ⟨none, .file⟩
  enumerate _ _ := .ok []
  create _ _ u := (.error .unsupportedOperation, u)
  remove _ u := (.error .unsupportedOperation, u)

/-- That provider mounted read-only at `/tmp`. -/
def readOnlyTmp : Machine Unit where
  saifs := [Op.register (.other plain), .mount "/tmp".toList 2 true].foldl (step Provider.name .vfs) SaifsState.new
  world := quiet
  others := ()
  metadata _ := none
  handles := []

/-- A directory is not opened for writing. -/
theorem not_writable_tmp : ¬Writable quiet "/tmp".toList := by
  rintro ⟨fs, i, n, ho⟩
  have hok := openFile_ok (Mounts.wired_reachable quiet_reachable).1.sys.linked ho nofun
  obtain ⟨e, he⟩ : ∃ e, (Vfs.openFile quiet "/tmp".toList .readWriteCreate).map Prod.fst = some (.error e) := by
    rw [quiet_eq]
    exact ⟨_, rfl⟩
  rw [hok] at he
  cases he

theorem read_only_spared_tmp : Vfs.Reachable readOnlyTmp.world ∧ Run.Along actStep Spared (some readOnlyTmp)
    [.touch "/tmp/x".toList, .openHandle "/tmp".toList, .write 0 [1]] := by
  refine ⟨quiet_reachable, read_only_spared readOnlyTmp quiet_reachable _ ⟨?_, ?_, ?_, trivial⟩⟩
  · rintro _ _ _ _ _ ⟨⟩
  · rintro _ _ _ _ _ ⟨⟩
  · obtain ⟨u, hu, hworld, hhandle⟩ : ∃ u : Machine Unit,
        actStep (actStep (some readOnlyTmp) (.touch "/tmp/x".toList)) (.openHandle "/tmp".toList) = some u ∧
        u.world = quiet ∧ u.handles.map (·.path) = ["/tmp".toList] := by
      unfold readOnlyTmp
      exact ⟨_, rfl, rfl, rfl⟩
    rintro v k data h hv ⟨⟩ hk -
    obtain rfl := Option.mem_unique hu hv
    have hpath : h.path = "/tmp".toList := by
      have hmem := List.mem_map_of_mem (f := fun h : SaifsHandle => h.path) (List.mem_of_getElem? hk)
      rw [hhandle] at hmem
      exact List.mem_singleton.mp hmem
    rw [hpath, hworld]
    exact not_writable_tmp

/-- The VFS makes `/tmp/x` for the handle. -/
theorem handle_writes_read_only : ∃ u, actStep (some readOnlyTmp) (.openHandle "/tmp/x".toList) = some u ∧
    ¬Spared (some u) (.write 0 [1]) := by
  obtain ⟨u, v, hu, hpath, hro, hv, hbefore, hafter⟩ : ∃ u v : Machine Unit,
      actStep (some readOnlyTmp) (.openHandle "/tmp/x".toList) = some u ∧
      u.pathOf (.write 0 [1]) = some "/tmp/x".toList ∧ u.ReadOnlyAt "/tmp/x".toList ∧ u.act (.write 0 [1]) = some v ∧
      u.world.vfs.fs.nodes.length = 39 ∧ v.world.vfs.fs.nodes.length = 40 := by
    unfold readOnlyTmp
    rw [quiet_eq]
    exact ⟨_, _, rfl, rfl, ⟨_, rfl, rfl⟩, rfl, by decide, by decide⟩
  refine ⟨u, hu, fun hspared => ?_⟩
  have hsame := (hspared u _ v rfl hpath hro hv).1
  rw [hsame, hbefore] at hafter
  cases hafter

end Saios.Saifs
