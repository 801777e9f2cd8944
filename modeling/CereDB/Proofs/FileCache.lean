import CereDB.Lib.Recency
import CereDB.Storage.FileCache

/-!
# `CereDB.Proofs.FileCache`: the handle cache is an LRU cache

`LruFileCache` keeps a map of handles and, apart from it, a queue of paths. A history carries a
cache together with the paths of its successful `get_or_open` calls. `CacheHistory.IsLru` says that
the queue is a duplicate-free ordering of the cached paths by their latest use, and that there are
no more of them than the capacity. Every operation keeps it (`IsLru.step`), and `step_leaves` says
which operation takes a path out of the cache.
-/

set_option autoImplicit false

namespace CereDB.Storage

open CereDB.Lib

/-- The operations on the cache. A miss of `getOrOpen` opens the file, or returns the error. -/
inductive CacheOp where
  | getOrOpen (path : String) (openError : Option DBError)
  | remove (path : String)
  | clear

/-- A cache and the paths it was used for, in order. -/
structure CacheHistory where
  cache : LruFileCache
  uses : List String

namespace LruFileCache

/-- The path has a handle. -/
def Cached (cache : LruFileCache) (path : String) : Prop := cache.handles[path]?.isSome = true

instance (cache : LruFileCache) (path : String) : Decidable (cache.Cached path) :=
  inferInstanceAs (Decidable (_ = true))

/-- What `get_or_open` does: a hit moves the path to the end of the queue, a miss on a file that
does not open changes nothing, and any other miss puts it there, at full capacity in place of the
first path of the queue. -/
theorem getOrOpenWith_cases (cache : LruFileCache) (path : String) (openError : Option DBError) :
    (cache.Cached path ∧ ∃ fd, cache.getOrOpenWith path openError = (.ok fd, cache.touch path)) ∨
    (¬cache.Cached path ∧ ∃ e, cache.getOrOpenWith path openError = (.error (.error e), cache)) ∨
    (¬cache.Cached path ∧ openError = none ∧ ∃ room,
      room = (if cache.capacity ≤ cache.handles.size then cache.evictOldest else cache) ∧
      cache.getOrOpenWith path openError = (.ok cache.opened, { room with
        handles := room.handles.insert path cache.opened
        order := room.order ++ [path]
        opened := cache.opened + 1 })) := by
  unfold Cached getOrOpenWith getOrOpen
  cases hfound : cache.handles[path]? with
  | some fd =>
    refine .inl ⟨rfl, fd, ?_⟩
    cases openError <;> rfl
  | none =>
    cases openError with
    | some e => exact .inr (.inl ⟨by simp, e, rfl⟩)
    | none => exact .inr (.inr ⟨by simp, rfl, _, rfl, rfl⟩)

end LruFileCache

namespace CacheHistory

/-- One operation. A `get_or_open` that returns `Ok` is a use. -/
def step (history : CacheHistory) : CacheOp → CacheHistory
  | .getOrOpen path openError =>
    match history.cache.getOrOpenWith path openError with
    | (.ok _, cache) => { cache, uses := history.uses ++ [path] }
    | (.error _, cache) => { history with cache }
  | .remove path => { history with cache := history.cache.remove path }
  | .clear => { history with cache := history.cache.clear }

/-- The operations in order, on a new cache. -/
def run (capacity : Nat) (ops : List CacheOp) : CacheHistory :=
  ops.foldl step { cache := .new capacity, uses := [] }

/-- The queue orders exactly the cached paths by their latest use, and there are no more of them
than the capacity. -/
structure IsLru (history : CacheHistory) : Prop where
  recency : Recency history.uses history.cache.order
  cached : ∀ path, path ∈ history.cache.order ↔ history.cache.Cached path
  bounded : history.cache.order.length ≤ history.cache.capacity

/-- The queue is as long as the map is large. -/
theorem IsLru.size_handles {history : CacheHistory} (h : history.IsLru) :
    history.cache.handles.size = history.cache.order.length := by
  have hkeys : (history.cache.handles.toList.map Prod.fst).Nodup := by
    have hsorted := OrdMap.sorted_toList history.cache.handles
    exact (List.pairwise_map.mpr hsorted).imp fun hlt heq => (ne_of_lt hlt) heq
  have hperm : history.cache.order.Perm (history.cache.handles.toList.map Prod.fst) := by
    refine (List.perm_ext_iff_of_nodup h.recency.nodup hkeys).mpr fun path => ?_
    rw [h.cached, LruFileCache.Cached, Option.isSome_iff_exists, List.mem_map]
    constructor
    · rintro ⟨fd, hfd⟩
      exact ⟨(path, fd), (OrdMap.mem_toList_iff _ _ _).mpr hfd, rfl⟩
    · rintro ⟨⟨_, fd⟩, hmem, rfl⟩
      exact ⟨fd, (OrdMap.mem_toList_iff _ _ _).mp hmem⟩
  rw [hperm.length_eq, List.length_map]
  exact Std.ExtTreeMap.length_toList.symm

section
variable {history : CacheHistory}

/-- A path that is not cached stands at the end of the queue after a use. -/
theorem IsLru.filter_order (h : history.IsLru) {path : String} (hpath : ¬history.cache.Cached path)
    {rest : List String} (hrest : List.Sublist rest history.cache.order) :
    rest.filter (· ≠ path) = rest := by
  rw [List.filter_eq_self]
  intro other hother
  have hcached := (h.cached other).mp (hrest.subset hother)
  simp only [decide_eq_true_eq]
  rintro rfl
  exact hpath hcached

/-- The cache with room for one more path. -/
theorem IsLru.room (h : history.IsLru) (hpos : 0 < history.cache.capacity) {room : LruFileCache}
    (hroom : room = if history.cache.capacity ≤ history.cache.handles.size
      then history.cache.evictOldest else history.cache) :
    List.Sublist room.order history.cache.order ∧ room.capacity = history.cache.capacity ∧
      room.order.length < room.capacity ∧ ∀ path, path ∈ room.order ↔ room.Cached path := by
  rw [h.size_handles] at hroom
  split at hroom
  · rename_i hfull
    cases horder : history.cache.order with
    | nil =>
      rw [horder] at hfull
      exact absurd (lt_of_lt_of_le hpos hfull) (lt_irrefl 0)
    | cons oldest rest =>
      have hevict : room = { history.cache with
          handles := history.cache.handles.erase oldest, order := rest } := by
        rw [hroom, LruFileCache.evictOldest, horder]
      have hnodup := h.recency.nodup
      have hbounded := h.bounded
      rw [horder] at hnodup hbounded
      subst hevict
      refine ⟨List.sublist_cons_self _ _, rfl, hbounded, fun path => ?_⟩
      have hcached := h.cached path
      rw [horder, List.mem_cons] at hcached
      show path ∈ rest ↔ (history.cache.handles.erase oldest)[path]?.isSome = true
      -- The evicted path is in neither, and nothing else has changed.
      rw [OrdMap.get?_erase]
      by_cases hpath : oldest = path
      · subst hpath
        simpa using (List.nodup_cons.mp hnodup).1
      · rw [if_neg hpath]
        exact ⟨fun hmem => hcached.mp (.inr hmem),
          fun hsome => (hcached.mpr hsome).resolve_left (Ne.symm hpath)⟩
  · rename_i hfree
    subst hroom
    exact ⟨List.Sublist.refl _, rfl, not_le.mp hfree, h.cached⟩

/-- Every operation keeps the cache an LRU cache. -/
theorem IsLru.step (h : history.IsLru) (hpos : 0 < history.cache.capacity) (op : CacheOp) :
    (history.step op).IsLru ∧ (history.step op).cache.capacity = history.cache.capacity := by
  cases op with
  | getOrOpen path openError =>
    rcases history.cache.getOrOpenWith_cases path openError with ⟨hhit, fd, heq⟩ |
      ⟨-, e, heq⟩ | ⟨hmiss, -, room, hroom, heq⟩
    · -- A hit: the path is cached before and after.
      simp only [CacheHistory.step, heq]
      refine ⟨⟨h.recency.use path, fun other => ?_, ?_⟩, rfl⟩
      · show other ∈ history.cache.order.filter (· ≠ path) ++ [path] ↔ history.cache.Cached other
        rw [List.mem_append, List.mem_filter, List.mem_singleton, h.cached]
        by_cases hother : other = path
        · simp [hother, hhit]
        · simp [hother]
      · have hshorter : (history.cache.order.filter (· ≠ path)).length
            < history.cache.order.length :=
          List.length_filter_lt_length_iff_exists.mpr ⟨path, (h.cached path).mpr hhit, by simp⟩
        show (history.cache.order.filter (· ≠ path) ++ [path]).length ≤ history.cache.capacity
        rw [List.length_append, List.length_singleton]
        exact hshorter.trans_le h.bounded
    · simp only [CacheHistory.step, heq]
      exact ⟨h, trivial⟩
    · obtain ⟨hsublist, hcapacity, hfree, hcached⟩ := h.room hpos hroom
      simp only [CacheHistory.step, heq]
      refine ⟨⟨?_, fun other => ?_, ?_⟩, hcapacity⟩
      · have huse := (h.recency.sublist hsublist).use path
        rwa [h.filter_order hmiss hsublist] at huse
      · show other ∈ room.order ++ [path] ↔
          (room.handles.insert path history.cache.opened)[other]?.isSome = true
        rw [List.mem_append, List.mem_singleton, hcached, OrdMap.get?_insert]
        by_cases hother : path = other
        · simp [hother]
        · rw [if_neg hother]
          exact or_iff_left (Ne.symm hother)
      · show (room.order ++ [path]).length ≤ room.capacity
        rw [List.length_append, List.length_singleton]
        exact hfree
  | remove path =>
    refine ⟨⟨h.recency.sublist List.filter_sublist, fun other => ?_,
      (List.length_filter_le _ _).trans h.bounded⟩, rfl⟩
    show other ∈ history.cache.order.filter (· ≠ path) ↔
      (history.cache.handles.erase path)[other]?.isSome = true
    rw [List.mem_filter, h.cached, OrdMap.get?_erase]
    by_cases hother : path = other
    · simp [hother]
    · simp [hother, Ne.symm hother, LruFileCache.Cached]
  | clear =>
    refine ⟨⟨.nil _, fun other => ?_, Nat.zero_le _⟩, rfl⟩
    simp [CacheHistory.step, LruFileCache.clear, LruFileCache.Cached]

/-- How a path leaves the cache: it is removed, all are, or a miss at full capacity evicts it as
the least recently used one. -/
def Leaves (history : CacheHistory) (path : String) : CacheOp → Prop
  | .getOrOpen opened openError =>
    ¬history.cache.Cached opened ∧ openError = none ∧
      history.cache.handles.size = history.cache.capacity ∧
      ∀ other, history.cache.Cached other → other ≠ path →
        age history.uses other < age history.uses path
  | .remove removed => removed = path
  | .clear => True

theorem IsLru.leaves (h : history.IsLru) {path : String} (hpath : history.cache.Cached path)
    {op : CacheOp} (hgone : ¬(history.step op).cache.Cached path) : history.Leaves path op := by
  cases op with
  | clear => trivial
  | remove removed =>
    show removed = path
    by_contra hother
    refine hgone ?_
    show (history.cache.handles.erase removed)[path]?.isSome = true
    rw [OrdMap.get?_erase, if_neg hother]
    exact hpath
  | getOrOpen opened openError =>
    rcases history.cache.getOrOpenWith_cases opened openError with ⟨-, fd, heq⟩ |
      ⟨-, e, heq⟩ | ⟨hmiss, hopens, room, hroom, heq⟩
    · simp only [CacheHistory.step, heq] at hgone
      exact absurd hpath hgone
    · simp only [CacheHistory.step, heq] at hgone
      exact absurd hpath hgone
    have hroomGone : ¬room.Cached path := by
      intro hroomPath
      refine hgone ?_
      simp only [CacheHistory.step, heq]
      show (room.handles.insert opened history.cache.opened)[path]?.isSome = true
      rw [OrdMap.get?_insert]
      split
      · rfl
      · exact hroomPath
    split at hroom
    · rename_i hfull
      -- Something was evicted: the first path of the queue.
      have hmem := (h.cached path).mpr hpath
      cases horder : history.cache.order with
      | nil =>
        rw [horder] at hmem
        cases hmem
      | cons oldest rest =>
        have hrecency := h.recency
        have hbounded := h.bounded
        rw [← h.size_handles] at hbounded
        rw [horder] at hmem hrecency
        have hoverwritten : oldest = path := by
          by_contra hother
          refine hroomGone ?_
          rw [hroom, LruFileCache.evictOldest, horder]
          show (history.cache.handles.erase oldest)[path]?.isSome = true
          rw [OrdMap.get?_erase, if_neg hother]
          exact hpath
        subst hoverwritten
        refine ⟨hmiss, hopens, le_antisymm hbounded hfull, fun other hother hne => ?_⟩
        rw [← h.cached, horder, List.mem_cons] at hother
        exact hrecency.age_lt_of_mem other (hother.resolve_left hne)
    · rw [hroom] at hroomGone
      exact absurd hpath hroomGone

end

/-- Every run keeps the cache an LRU cache of its capacity. -/
theorem isLru_run {capacity : Nat} (hpos : 0 < capacity) (ops : List CacheOp) :
    (run capacity ops).IsLru ∧ (run capacity ops).cache.capacity = capacity := by
  have hfold (history : CacheHistory) (h : history.IsLru) (hcap : history.cache.capacity = capacity) :
      (ops.foldl step history).IsLru ∧ (ops.foldl step history).cache.capacity = capacity := by
    induction ops generalizing history with
    | nil => exact ⟨h, hcap⟩
    | cons op ops ih =>
      obtain ⟨hnext, hnextCap⟩ := h.step (by rw [hcap]; exact hpos) op
      exact ih _ hnext (hnextCap.trans hcap)
  refine hfold _ ⟨.nil _, fun path => ?_, Nat.zero_le _⟩ rfl
  simp [LruFileCache.new, LruFileCache.Cached]

end CacheHistory

/-- **The file handle cache is an LRU cache.** With a positive capacity, after any operations: the
queue has no path twice, holds exactly the cached paths, at most as many as the capacity, in the
order of their latest successful use; and a path leaves the cache only if it is removed, if the
cache is cleared, or as the least recently used path when a miss meets a full cache. -/
theorem file_cache_is_lru (capacity : Nat) (hpos : 0 < capacity) (ops : List CacheOp) :
    let history := CacheHistory.run capacity ops
    history.cache.order.Nodup ∧
    (∀ path, path ∈ history.cache.order ↔ history.cache.Cached path) ∧
    history.cache.handles.size ≤ capacity ∧
    (∀ path, history.cache.Cached path → path ∈ history.uses) ∧
    history.cache.order.Pairwise (fun a b => age history.uses b < age history.uses a) ∧
    ∀ path op, history.cache.Cached path → ¬(history.step op).cache.Cached path →
      history.Leaves path op := by
  intro history
  obtain ⟨hlru, hcap⟩ := CacheHistory.isLru_run hpos ops
  refine ⟨hlru.recency.nodup, hlru.cached, ?_, ?_, hlru.recency.sorted, ?_⟩
  · exact hlru.size_handles.trans_le (hlru.bounded.trans hcap.le)
  · exact fun path hpath => hlru.recency.used path ((hlru.cached path).mpr hpath)
  · exact fun path op hpath hgone => hlru.leaves hpath hgone

/-- Three paths in a cache for two: the first one is used again, so the second one is evicted. -/
def threePaths : List CacheOp :=
  [.getOrOpen "a" none, .getOrOpen "b" none, .getOrOpen "a" none, .getOrOpen "x" (some (.io .notFound)),
    .getOrOpen "c" none]

theorem file_cache_is_lru_threePaths :
    (CacheHistory.run 2 threePaths).cache.order = ["a", "c"] ∧
      (CacheHistory.run 2 threePaths).cache.handles.size ≤ 2 ∧
      (CacheHistory.run 2 threePaths).uses = ["a", "b", "a", "c"] :=
  ⟨by decide +kernel, (file_cache_is_lru 2 (by decide) threePaths).2.2.1, by decide +kernel⟩

end CereDB.Storage
