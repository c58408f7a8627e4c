import HMalloc.Registry

/-!
The malloc override (`override.cpp`): the entry points that get a pointer from
anywhere in the process and decide from the address alone whether it is one of
the allocator's. A result `none` is a probe loop of the registry that does not
end.
-/

namespace HMalloc

/-- What an entry point of the override does with its arguments: it calls this
allocator, it calls the real one, or it returns null or zero at once. -/
inductive Served where
  | nothing
  | hmMalloc (size : Nat)
  | hmFree (p : Nat)
  | hmRealloc (p size : Nat)
  | hmUsableSize (p : Nat)
  | realFree (p : Nat)
  | realRealloc (p size : Nat)
  | realUsable (p : Nat)
  deriving DecidableEq

/-- `ours`. -/
def ours (r : Registry) (p : Nat) : Option Bool := regionOwns r (regionBase p)

section EntryPoints

-- `real` says whether `dlsym` finds the real allocator's symbol.
variable (real : Bool) (r : Registry)

/-- `checked_free`. -/
def checkedFree (p : Nat) : Option Served :=
  if p = 0 then some .nothing
  else do
    if ← ours r p then return .hmFree p
    else return if real then .realFree p else .nothing

/-- `checked_realloc`. -/
def checkedRealloc (p size : Nat) : Option Served :=
  if p = 0 then some (.hmMalloc size)
  else do
    if ← ours r p then return .hmRealloc p size
    else return if real then .realRealloc p size else .nothing

/-- `checked_usable`. -/
def checkedUsable (p : Nat) : Option Served :=
  if p = 0 then some .nothing
  else do
    if ← ours r p then return .hmUsableSize p
    else return if real then .realUsable p else .nothing

end EntryPoints

/-- A pointer of the allocator is served by the allocator, and by nothing else. -/
structure RoutedHome (real : Bool) (r : Registry) (p : Nat) : Prop where
  ours : ours r p = some true
  free : checkedFree real r p = some (.hmFree p)
  realloc : ∀ size, checkedRealloc real r p size = some (.hmRealloc p size)
  usable : checkedUsable real r p = some (.hmUsableSize p)

theorem RoutedHome.of_owns {r : Registry} {p : Nat} (hp : p ≠ 0)
    (h : regionOwns r (regionBase p) = some true) (real : Bool) : RoutedHome real r p where
  ours := h
  free := by simp [checkedFree, hp, HMalloc.ours, h]
  realloc := by simp [checkedRealloc, hp, HMalloc.ours, h]
  usable := by simp [checkedUsable, hp, HMalloc.ours, h]

/-- A pointer the registry does not own is forwarded to the real allocator, or
refused when there is none. -/
structure Forwarded (real : Bool) (r : Registry) (p : Nat) : Prop where
  ours : ours r p = some false
  free : checkedFree real r p = some (if real then .realFree p else .nothing)
  realloc : ∀ size, checkedRealloc real r p size =
    some (if real then .realRealloc p size else .nothing)
  usable : checkedUsable real r p = some (if real then .realUsable p else .nothing)

theorem Forwarded.of_owns {r : Registry} {p : Nat} (hp : p ≠ 0)
    (h : regionOwns r (regionBase p) = some false) (real : Bool) : Forwarded real r p where
  ours := h
  free := by simp [checkedFree, hp, HMalloc.ours, h]
  realloc := by simp [checkedRealloc, hp, HMalloc.ours, h]
  usable := by simp [checkedUsable, hp, HMalloc.ours, h]

end HMalloc
