import Mathlib.Data.List.Basic

/-! # Files and power failures

A directory of named files.  The data of a file is safe once the file is synced, and a change of the
directory once the directory is: a power failure leaves the directory as it was at some moment since
its last sync, and in it the files that were not synced hold anything.

`T` says which names matter.  A file comes under such a name by being written under another one, synced
and renamed; no moment shows a part of it, and after the sync of the directory it is there at every
moment (`Fs.add_take`). -/

namespace FileSystem

structure File (N D : Type) where
  name : N
  data : D
  synced : Bool

/-- The files, in the order in which they are listed. -/
abbrev Folder (N D : Type) := List (File N D)

inductive Op (N D : Type) where
  /-- create or truncate, and open -/
  | create (name : N) (data : D)
  | write (name : N) (f : D → D)
  | sync (name : N)
  | rename (source target : N)
  | remove (name : N)
  | syncDir

/-- The names an operation works on. -/
def Op.names {N D : Type} : Op N D → List N
  | .create name _ => [name]
  | .write name _ => [name]
  | .sync name => [name]
  | .rename source target => [source, target]
  | .remove name => [name]
  | .syncDir => []

namespace Folder

variable {N D : Type} {T : N → Bool} {dir : Folder N D}

/-- The files whose names matter. -/
def shown (T : N → Bool) (dir : Folder N D) : Folder N D := dir.filter fun f => T f.name

/-- What a power failure makes of a file. -/
def spoilFile (junk : N → D) (f : File N D) : File N D :=
  if f.synced then f else ⟨f.name, junk f.name, false⟩

def spoil (junk : N → D) (dir : Folder N D) : Folder N D := dir.map (spoilFile junk)

theorem shown_cons (f : File N D) :
    shown T (f :: dir) = if T f.name then f :: shown T dir else shown T dir := List.filter_cons

theorem spoilFile_name (junk : N → D) (f : File N D) : (spoilFile junk f).name = f.name := by
  unfold spoilFile
  split_ifs <;> rfl

theorem shown_spoil (junk : N → D) (dir : Folder N D) :
    shown T (spoil junk dir) = spoil junk (shown T dir) := by
  induction dir with
  | nil => rfl
  | cons f dir ih =>
      unfold spoil at ih ⊢
      rw [List.map_cons, shown_cons, shown_cons, spoilFile_name, ih]
      split_ifs
      · rw [List.map_cons]
      · rfl

/-- Files that were synced come through. -/
theorem spoil_eq {junk : N → D} (h : ∀ f ∈ dir, f.synced = true) : spoil junk dir = dir :=
  (List.map_congr_left fun f hf => if_pos (h f hf)).trans (List.map_id' _)

variable [DecidableEq N] {name : N}

def remove (dir : Folder N D) (name : N) : Folder N D := dir.filter fun f => f.name ≠ name

def put (dir : Folder N D) (f : File N D) : Folder N D := remove dir f.name ++ [f]

/-- `g` on the file with the name. -/
def update (dir : Folder N D) (name : N) (g : File N D → File N D) : Folder N D :=
  dir.map fun f => if f.name = name then g f else f

def apply (dir : Folder N D) : Op N D → Folder N D
  | .create name data => put dir ⟨name, data, false⟩
  | .write name f => update dir name fun x => ⟨name, f x.data, false⟩
  | .sync name => update dir name fun x => ⟨name, x.data, true⟩
  | .rename source target =>
    match dir.find? fun f => f.name = source with
    | none => dir
    | some f => put (remove dir source) ⟨target, f.data, f.synced⟩
  | .remove name => remove dir name
  | .syncDir => dir

theorem shown_remove (h : T name = false) : shown T (remove dir name) = shown T dir := by
  unfold shown remove
  rw [List.filter_filter]
  apply List.filter_congr
  intro f _
  cases hT : T f.name with
  | false => rfl
  | true =>
      have hne : f.name ≠ name := fun he => by simp [he, h] at hT
      simp [hne]

theorem shown_put {f : File N D} (h : T f.name = false) : shown T (put dir f) = shown T dir := by
  have hone : shown T [f] = [] := List.filter_cons_of_neg (by simp [h])
  rw [put, shown, List.filter_append, ← shown, ← shown, shown_remove h, hone, List.append_nil]

/-- A file comes under a name that matters and that was free. -/
theorem shown_put_new {f : File N D} (h : T f.name = true)
    (hnew : ∀ g ∈ shown T dir, g.name ≠ f.name) : shown T (put dir f) = shown T dir ++ [f] := by
  have hremove : remove dir f.name = dir := by
    apply List.filter_eq_self.mpr
    intro g hg
    have hne : g.name ≠ f.name := fun he => hnew g (List.mem_filter.mpr ⟨hg, he ▸ h⟩) he
    simp [hne]
  have hone : shown T [f] = [f] := List.filter_cons_of_pos h
  rw [put, hremove, shown, List.filter_append, ← shown, ← shown, hone]

theorem shown_update {g : File N D → File N D} (h : T name = false) (hg : ∀ f, (g f).name = name) :
    shown T (update dir name g) = shown T dir := by
  induction dir with
  | nil => rfl
  | cons f dir ih =>
      unfold update at ih ⊢
      rw [List.map_cons, shown_cons, shown_cons, ih]
      by_cases hf : f.name = name
      · simp [hf, hg, h]
      · simp [hf]

/-- Operations on names that do not matter do not show. -/
theorem shown_apply {op : Op N D} (h : ∀ name ∈ op.names, T name = false) :
    shown T (apply dir op) = shown T dir := by
  cases op with
  | create name data => exact shown_put (h name List.mem_cons_self)
  | write name f => exact shown_update (h name List.mem_cons_self) fun _ => rfl
  | sync name => exact shown_update (h name List.mem_cons_self) fun _ => rfl
  | rename source target =>
      have hs : T source = false := h source List.mem_cons_self
      have ht : T target = false := h target (by simp [Op.names])
      cases hf : dir.find? fun f => f.name = source with
      | none => simp only [apply, hf]
      | some f =>
          simp only [apply, hf]
          exact (shown_put ht).trans (shown_remove hs)
  | remove name => exact shown_remove (h name List.mem_cons_self)
  | syncDir => rfl

/-- A file that has just been put is found under its name. -/
theorem find?_put {f : File N D} : (put dir f).find? (fun g => g.name = f.name) = some f := by
  have hnone : (remove dir f.name).find? (fun g => g.name = f.name) = none := by
    rw [List.find?_eq_none]
    intro g hg
    simpa using (List.mem_filter.mp hg).2
  rw [put, List.find?_append, hnone]
  simp

/-- To work on a file that has just been put is to put another one. -/
theorem update_put {f : File N D} {g : File N D → File N D} (hg : (g f).name = f.name) :
    update (put dir f) f.name g = put dir (g f) := by
  have hrest : update (remove dir f.name) f.name g = remove dir f.name := by
    refine (List.map_congr_left fun x hx => if_neg ?_).trans (List.map_id' _)
    simpa using (List.mem_filter.mp hx).2
  have hone : update [f] f.name g = [g f] := congrArg (fun x => [x]) (if_pos rfl)
  rw [put, put, hg, update, List.map_append, ← update, ← update, hrest, hone]

end Folder

/-! ### The moments that a power failure may bring back -/

structure Fs (N D : Type) where
  dir : Folder N D
  /-- the directory at the other moments since its last sync -/
  past : List (Folder N D)

namespace Fs

variable {N D : Type}

def moments (s : Fs N D) : List (Folder N D) := s.dir :: s.past

/-- A power failure that brings back the moment `k`. -/
def powerFail (s : Fs N D) (k : ℕ) (junk : N → D) : Fs N D :=
  ⟨(s.moments.getD k s.dir).spoil junk, []⟩

theorem dir_powerFail (s : Fs N D) (k : ℕ) (junk : N → D) :
    ∃ d ∈ s.moments, s.powerFail k junk = ⟨d.spoil junk, []⟩ := by
  refine ⟨s.moments.getD k s.dir, ?_, rfl⟩
  rw [List.getD_eq_getElem?_getD]
  cases h : s.moments[k]? with
  | none => exact List.mem_cons_self
  | some d => exact List.mem_of_getElem? h

variable [DecidableEq N] {T : N → Bool} {s : Fs N D} {op : Op N D} {ops : List (Op N D)}
  {d : Folder N D}

def apply (s : Fs N D) (op : Op N D) : Fs N D :=
  match op with
  | .syncDir => ⟨s.dir, []⟩
  | op => ⟨s.dir.apply op, s.moments⟩

def applyAll (s : Fs N D) (ops : List (Op N D)) : Fs N D := ops.foldl apply s

theorem applyAll_append (ops ops' : List (Op N D)) :
    s.applyAll (ops ++ ops') = (s.applyAll ops).applyAll ops' := List.foldl_append

theorem dir_apply : (s.apply op).dir = s.dir.apply op := by
  cases op <;> rfl

theorem moments_apply_syncDir : (s.apply .syncDir).moments = [s.dir] := rfl

theorem mem_moments_apply (h : d ∈ (s.apply op).moments) : d = s.dir.apply op ∨ d ∈ s.moments := by
  cases op with
  | syncDir => exact .inl (List.mem_singleton.mp h)
  | _ => exact List.mem_cons.mp h

/-- Operations on names that do not matter show at no moment. -/
theorem shown_applyAll (h : ∀ op ∈ ops, ∀ name ∈ op.names, T name = false) :
    Folder.shown T (s.applyAll ops).dir = Folder.shown T s.dir ∧
      ∀ d ∈ (s.applyAll ops).moments, ∃ d' ∈ s.moments, Folder.shown T d = Folder.shown T d' := by
  induction ops generalizing s with
  | nil => exact ⟨rfl, fun d hd => ⟨d, hd, rfl⟩⟩
  | cons op ops ih =>
      obtain ⟨hop, hops⟩ := List.forall_mem_cons.mp h
      have hone : Folder.shown T (s.apply op).dir = Folder.shown T s.dir := by
        rw [dir_apply]
        exact Folder.shown_apply hop
      obtain ⟨hdir, hmoments⟩ := ih hops (s := s.apply op)
      refine ⟨hdir.trans hone, ?_⟩
      intro d hd
      obtain ⟨d₁, hd₁, he⟩ := hmoments d hd
      rcases mem_moments_apply hd₁ with rfl | hmem
      · exact ⟨s.dir, List.mem_cons_self, he.trans (Folder.shown_apply hop)⟩
      · exact ⟨d₁, hmem, he⟩

/-! ### Adding a file -/

/-- What is written under the name `tmp`, from the data `d₀` on. -/
def writeOps (tmp : N) (d₀ : D) (ws : List (D → D)) : List (Op N D) :=
  .create tmp d₀ :: ws.map (.write tmp)

/-- The file is written, synced and renamed, and the directory synced. -/
def addOps (tmp path : N) (d₀ : D) (ws : List (D → D)) : List (Op N D) :=
  writeOps tmp d₀ ws ++ [.sync tmp] ++ [.rename tmp path, .syncDir]

variable {tmp path : N} {d₀ : D} {ws : List (D → D)}

omit [DecidableEq N] in
theorem names_writeOps {op : Op N D} (h : op ∈ writeOps tmp d₀ ws) : op.names = [tmp] := by
  rcases List.mem_cons.mp h with rfl | h
  · rfl
  · obtain ⟨f, -, rfl⟩ := List.mem_map.mp h
    rfl

theorem dir_writeOps : (s.applyAll (writeOps tmp d₀ ws)).dir =
    s.dir.put ⟨tmp, ws.foldl (fun d f => f d) d₀, false⟩ := by
  suffices hgen : ∀ (s₁ : Fs N D) (d : D), s₁.dir = s.dir.put ⟨tmp, d, false⟩ →
      (s₁.applyAll (ws.map (.write tmp))).dir =
        s.dir.put ⟨tmp, ws.foldl (fun d f => f d) d, false⟩ from hgen _ d₀ rfl
  induction ws with
  | nil => exact fun _ _ h => h
  | cons f ws ih =>
      intro s₁ d h
      apply ih (s₁.apply (.write tmp f))
      rw [dir_apply, h]
      exact Folder.update_put (f := ⟨tmp, d, false⟩) rfl

/-- The renaming, once the file is complete. -/
theorem dir_rename (hpath : T path = true) (htmp : T tmp = false)
    (hnew : ∀ f ∈ Folder.shown T s.dir, f.name ≠ path) :
    Folder.shown T ((s.applyAll (writeOps tmp d₀ ws ++ [.sync tmp])).apply (.rename tmp path)).dir =
      Folder.shown T s.dir ++ [⟨path, ws.foldl (fun d f => f d) d₀, true⟩] := by
  have hsync : (s.applyAll (writeOps tmp d₀ ws ++ [.sync tmp])).dir =
      s.dir.put ⟨tmp, ws.foldl (fun d f => f d) d₀, true⟩ := by
    rw [applyAll_append]
    change ((s.applyAll (writeOps tmp d₀ ws)).apply (.sync tmp)).dir = _
    rw [dir_apply, dir_writeOps]
    exact Folder.update_put (f := ⟨tmp, ws.foldl (fun d f => f d) d₀, false⟩)
      (g := fun x => ⟨tmp, x.data, true⟩) rfl
  have hfind : (s.dir.put ⟨tmp, ws.foldl (fun d f => f d) d₀, true⟩).find? (fun g => g.name = tmp) =
      some ⟨tmp, ws.foldl (fun d f => f d) d₀, true⟩ :=
    @Folder.find?_put N D s.dir _ ⟨tmp, ws.foldl (fun d f => f d) d₀, true⟩
  have hshown : Folder.shown T ((s.dir.put ⟨tmp, ws.foldl (fun d f => f d) d₀, true⟩).remove tmp) =
      Folder.shown T s.dir := (Folder.shown_remove htmp).trans (Folder.shown_put htmp)
  rw [dir_apply, hsync]
  simp only [Folder.apply, hfind]
  rw [Folder.shown_put_new hpath fun g hg => hnew g (hshown ▸ hg), hshown]

/-- **Adding a file**: whenever the operations stop, every moment shows what some moment showed before,
or the complete file as well; the latter only if the renaming was done, and then the directory shows it.
After the last one the directory shows it at every moment. -/
theorem add_take (hpath : T path = true) (htmp : T tmp = false)
    (hnew : ∀ f ∈ Folder.shown T s.dir, f.name ≠ path) {n : ℕ} {s' : Fs N D}
    (hs' : s.applyAll ((addOps tmp path d₀ ws).take n) = s') {added : Folder N D}
    (hadded : Folder.shown T s.dir ++ [⟨path, ws.foldl (fun d f => f d) d₀, true⟩] = added) :
    (∀ d ∈ s'.moments, Folder.shown T d = added ∨
        ∃ d' ∈ s.moments, Folder.shown T d = Folder.shown T d') ∧
      (Folder.shown T s'.dir = if n < ws.length + 3 then Folder.shown T s.dir else added) ∧
      (ws.length + 4 ≤ n → ∀ d ∈ s'.moments, Folder.shown T d = added) := by
  have hlen : (writeOps tmp d₀ ws ++ [Op.sync tmp]).length = ws.length + 2 := by
    simp [writeOps]
  have hnames : ∀ op ∈ writeOps tmp d₀ ws ++ [Op.sync tmp], ∀ name ∈ op.names, T name = false := by
    intro op hop name hname
    have hop : op.names = [tmp] := by
      rcases List.mem_append.mp hop with h | h
      · exact names_writeOps h
      · rw [List.mem_singleton.mp h]
        rfl
    rw [hop] at hname
    exact List.mem_singleton.mp hname ▸ htmp
  have hrename : Folder.shown T ((s.applyAll (writeOps tmp d₀ ws ++ [.sync tmp])).apply
      (.rename tmp path)).dir = added := (dir_rename hpath htmp hnew).trans hadded
  unfold addOps at hs'
  subst hs'
  rcases Nat.lt_or_ge n (ws.length + 3) with hlt | hge
  · -- only the temporary file
    rw [List.take_append_of_le_length (by omega), if_pos hlt]
    obtain ⟨hdir, hmoments⟩ := shown_applyAll (s := s) fun op hop =>
      hnames op (List.mem_of_mem_take (i := n) hop)
    exact ⟨fun d hd => .inr (hmoments d hd), hdir, fun h => by omega⟩
  · obtain ⟨-, hmoments⟩ := shown_applyAll (s := s) hnames
    have htake : (writeOps tmp d₀ ws ++ [Op.sync tmp]).take n = writeOps tmp d₀ ws ++ [Op.sync tmp] :=
      List.take_of_length_le (by omega)
    rw [if_neg (by omega), List.take_append, htake, hlen, applyAll_append]
    obtain ⟨m, hm⟩ : ∃ m, n = ws.length + 3 + m := ⟨n - (ws.length + 3), by omega⟩
    have hsub : n - (ws.length + 2) = m + 1 := by omega
    rw [hsub, List.take_succ_cons]
    generalize s.applyAll (writeOps tmp d₀ ws ++ [Op.sync tmp]) = s₁ at hmoments hrename ⊢
    have hone : ∀ d ∈ (s₁.apply (.rename tmp path)).moments,
        Folder.shown T d = added ∨ ∃ d' ∈ s.moments, Folder.shown T d = Folder.shown T d' := by
      intro d hd
      rcases mem_moments_apply hd with hd | hd
      · exact .inl ((congrArg (Folder.shown T) (hd.trans dir_apply.symm)).trans hrename)
      · exact .inr (hmoments d hd)
    cases m with
    | zero => exact ⟨hone, hrename, fun h => by omega⟩
    | succ m =>
        have hlast : ∀ d ∈ ((s₁.apply (.rename tmp path)).apply .syncDir).moments,
            Folder.shown T d = added := by
          intro d hd
          rw [moments_apply_syncDir] at hd
          exact List.mem_singleton.mp hd ▸ hrename
        have htake : (Op.rename tmp path : Op N D) :: List.take (m + 1) [.syncDir] =
            [.rename tmp path, .syncDir] := by simp
        rw [htake]
        exact ⟨fun d hd => .inl (hlast d hd), hrename, fun _ => hlast⟩

end Fs

end FileSystem
