/-
  TWO RESOLVERS OF MOUNTED PATHS: the storage driver's `mounted_volume_for_path_internal` and the resolver of SAIFS.

  1. The storage driver's search is also a search for the best element of a list (`pick_volume`): its candidates are
     the volumes above the path, and a longer mount path is a higher score.

  2. Both searches are for the mount point with the most components (`resolvers_agree`), so on one set of mount
     points, in whatever order each side lists them, they find the same one, and the same path below it.
-/
import Saios.Saifs.Resolver
import Saios.Storage.Durability

namespace Saios.Saifs

open Path Option
open Storage (comps comps_isName comps_isComp comps_absolute normalizePath_eq normalizePath_absolute
  isChildOf_absolute StorageState DetectedVolume betterMount mountedVolumeForPathInternal)

/-! ## The storage driver's search -/

/-- The path is on the volume, or on one mounted below it. -/
def volumeAbove (path : Str) (v : DetectedVolume) : Bool :=
  v.mountedAt.any fun mount => Storage.isChildOf (Storage.normalizePath mount) path

def mountLength (v : DetectedVolume) : Nat :=
  (v.mountedAt.map fun mount => (Storage.normalizePath mount).length).getD 0

/-- One volume: nothing found yet goes with the length 0, so asking for it makes no difference. -/
theorem betterMount_eq {path : Str} {best : Option DetectedVolume × Nat} (h : best.1 = none → best.2 = 0)
    (v : DetectedVolume) : betterMount path best v = Best.keep (volumeAbove path) mountLength best v := by
  unfold betterMount Best.keep volumeAbove mountLength
  cases v.mountedAt with
  | none => rfl
  | some mount =>
    simp only [any_some, map_some]
    cases Storage.isChildOf (Storage.normalizePath mount) path with
    | false => rfl
    | true =>
      cases hbest : best.1 with
      | none => rw [h hbest]; rfl
      | some u => simp

/-- **The driver searches for the longest mount path.** -/
theorem pick_volume (path : Str) (vols : List DetectedVolume) :
    (vols.foldl (betterMount path) (none, 0)).1 = Best.pick (volumeAbove path) mountLength vols := by
  have hfold : ∀ (vols : List DetectedVolume) (best : Option DetectedVolume × Nat), (best.1 = none → best.2 = 0) →
      vols.foldl (betterMount path) best = vols.foldl (Best.keep (volumeAbove path) mountLength) best := by
    intro vols
    induction vols with
    | nil => exact fun _ _ => rfl
    | cons v vols ih =>
      intro best hbest
      rw [List.foldl_cons, betterMount_eq hbest]
      refine ih _ ?_
      unfold Best.keep
      split
      · split
        · exact nofun
        · exact hbest
      · exact hbest
  rw [hfold vols _ fun _ => rfl]
  rfl

variable {v : DetectedVolume}

theorem volumeForPath_pick {st : StorageState} {path : Str}
    (hpick : Best.pick (volumeAbove (Storage.normalizePath path)) mountLength st.volumes = some v)
    (hat : v.mountedAt.isSome = true) : Storage.mountedVolumeForPath st path = some v := by
  obtain ⟨mount, hmount⟩ := isSome_iff_exists.mp hat
  unfold Storage.mountedVolumeForPath mountedVolumeForPathInternal
  dsimp only
  rw [pick_volume, hpick]
  dsimp only
  rw [hmount]
  rfl

/-! ## The two searches -/

variable {m : MountPoint}

section

variable {π : Type} {s : SaifsState π}

section

variable (h : Placed s) (hm : m ∈ s.mounts)

include h hm

theorem Placed.normalizePath_path :
    Storage.normalizePath m.path = m.path := by
  rw [normalizePath_eq, ← h.path_eq hm]

/-- A volume mounted at one of the mount points is above the path when the mount point is. -/
theorem Placed.volumeAbove_iff (hv : v.mountedAt = some m.path) {ds : List Str} (hds : ∀ c ∈ ds, IsName c) :
    volumeAbove (absolute ds) v = true ↔ comps m.path <+: ds := by
  rw [volumeAbove, hv, any_some, h.normalizePath_path hm, h.path_eq hm,
    isChildOf_absolute (comps_isName _) hds, comps_absolute (comps_isName _)]

theorem Placed.mountLength_eq (hv : v.mountedAt = some m.path) :
    mountLength v = m.path.length := by
  rw [mountLength, hv, map_some, getD_some, h.normalizePath_path hm]

end

/-- **The two resolvers agree** on a set of mount points: they choose the same one and the same path below it. -/
theorem resolvers_agree (s : SaifsState π) (hs : Placed s) (st : StorageState)
    (hsame : (st.volumes.filterMap DetectedVolume.mountedAt).Perm (s.mounts.map MountPoint.path)) (path : Str)
    (hnul : nul ∉ path) :
    ∃ v r, mountedVolumeForPathInternal st path = some (v, r.providerPath) ∧ resolvePathInternal s path = .ok r ∧
      v.mountedAt = some r.mountPath := by
  obtain ⟨r, hr, hperm⟩ := hs.resolves hnul
  have hds := comps_isName path
  have habs : r.absolutePath = absolute (comps path) := (canonicalizePath_eq_ok.mp hr.absolutePath).2
  -- a mount point of SAIFS is one of the driver's, and the other way round
  have hmounts : ∀ p, (∃ v ∈ st.volumes, v.mountedAt = some p) ↔ ∃ m ∈ s.mounts, m.path = p := by
    intro p
    rw [← List.mem_filterMap, hsame.mem_iff, List.mem_map]
  obtain ⟨v₀, hv₀, hat₀⟩ := (hmounts r.mountPath).mpr ⟨_, hr.mounted, rfl⟩
  have habove₀ : comps r.mountPath <+: comps path := by
    have h := hr.above
    rwa [hs.components_path hr.mounted, habs, components_comps] at h
  obtain ⟨v, hpick⟩ := Best.exists_pick (s := mountLength) hv₀ ((hs.volumeAbove_iff hr.mounted hat₀ hds).mpr habove₀)
  obtain ⟨hv, hvabove, hmax⟩ := Best.pick_spec hpick
  have hmost := hmax v₀ hv₀ ((hs.volumeAbove_iff hr.mounted hat₀ hds).mpr habove₀)
  -- the driver's choice is one of the mount points of SAIFS above the path
  obtain ⟨p, hat⟩ : ∃ p, v.mountedAt = some p := by
    cases hat : v.mountedAt with
    | none =>
      rw [volumeAbove, hat] at hvabove
      cases hvabove
    | some p => exact ⟨p, rfl⟩
  obtain ⟨m, hm, rfl⟩ := (hmounts p).mp ⟨v, hv, hat⟩
  have habove : comps m.path <+: comps path := (hs.volumeAbove_iff hm hat hds).mp hvabove
  have hpath : m.path = r.mountPath := by
    by_contra hne
    have hshort : (components m.path).length < (components r.mountPath).length := by
      refine hr.longest m hm ?_ fun heq => hne (congrArg MountPoint.path heq)
      rw [hs.components_path hm, habs, components_comps]
      exact habove
    rw [hs.components_path hm, hs.components_path hr.mounted] at hshort
    obtain ⟨t, ht, hlong⟩ := hs.longer hm hr.mounted habove habove₀ hshort
    have hpos := List.length_pos_iff.mpr ht
    rw [hs.mountLength_eq hr.mounted hat₀, hs.mountLength_eq hm hat, hlong, List.length_append] at hmost
    omega
  rw [hpath] at hat
  refine ⟨v, r, ?_, hperm _ (List.Perm.refl _), hat⟩
  have hunder : Storage.under r.mountPath r.providerPath = absolute (comps path) := by
    rw [← habs, ← hr.joined, Storage.under, joinPaths, hs.normalizePath_path hr.mounted]
  have hon : Storage.mountedVolumeForPath st (Storage.under r.mountPath r.providerPath) = some v := by
    rw [hunder]
    refine volumeForPath_pick ?_ (by rw [hat]; rfl)
    rw [normalizePath_absolute hds]
    exact hpick
  have hrel : Storage.Normal r.providerPath := ⟨_, comps_isName _, (canonicalizePath_eq_ok.mp hr.canonical).2⟩
  have hinfo := Storage.info_under hrel hat hon
  obtain ⟨⟨u, rel⟩, hfull, hu⟩ := Option.map_eq_some_iff.mp hinfo
  obtain ⟨⟨u', rel'⟩, hfull', rfl⟩ := Option.map_eq_some_iff.mp hon
  obtain ⟨rfl, rfl⟩ := Prod.mk.inj (Option.mem_unique hfull hfull')
  obtain rfl : rel = r.providerPath := (Prod.mk.inj (Prod.mk.inj hu).2).2
  unfold mountedVolumeForPathInternal at hfull ⊢
  rw [hunder, normalizePath_absolute (comps_isName path)] at hfull
  rw [normalizePath_eq path]
  exact hfull

end

/-- Three mount points, and the same three as the driver's volumes. -/
def threeMounts : SaifsState Unit :=
  { (SaifsState.new : SaifsState Unit) with
    mounts := [⟨"/x".toList, 1, false⟩, ⟨['/'], 1, false⟩, ⟨"/x/y".toList, 1, true⟩] }

def volumeAt (mountedAt : Option Str) : DetectedVolume :=
  { name := [], filesystem := .fat32, backing := [], totalBytes := 0, sectorSize := 512, mountedAt := mountedAt
    writable := true }

def threeVolumes : StorageState :=
  { initialized := true, disks := [], mounted := []
    volumes := [some ['/'], some "/x/y".toList, none, some "/x".toList].map volumeAt }

theorem resolvers_agree_three : ∃ v r, mountedVolumeForPathInternal threeVolumes "/x//y/z".toList = some (v, r.providerPath) ∧
    resolvePathInternal threeMounts "/x//y/z".toList = .ok r ∧ v.mountedAt = some r.mountPath := by
  refine resolvers_agree threeMounts ⟨?_, ?_, by decide⟩ threeVolumes (by decide) _ (by decide)
  · exact ⟨⟨['/'], 1, false⟩, by decide, rfl⟩
  · decide

end Saios.Saifs
