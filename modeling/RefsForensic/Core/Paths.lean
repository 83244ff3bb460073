import RefsForensic.Core.Directory

/-!
# Paths

`find_by_path` follows the chain of directories that the pieces of a path name
(`findByPath_follows`). Slashes only separate pieces, so neither the ones at the ends of a path nor
repeated ones matter.
-/

namespace RefsForensic

open Rust

variable {T : Target}

/-! ## Chains of directories -/

/-- `e` is the first entry named `name` of the listing of directory `d`. -/
def FirstNamed (image : Slice T) (d : ℕ) (name : String) (e : DirEntry) : Prop :=
  ∃ before after, listDir image d = .ok (before ++ e :: after) ∧ e.name = name ∧
    ∀ e' ∈ before, e'.name ≠ name

/-- The first `n` pieces lead from directory `ids 0` through the directories `ids 1`, …, `ids n`. -/
structure Leads (image : Slice T) (pieces : List String) (ids : ℕ → ℕ) (n : ℕ) : Prop where
  len : n ≤ pieces.length
  step : ∀ i < n, ∃ name e, pieces[i]? = some name ∧ FirstNamed image (ids i) name e ∧
    e.objectId = some (ids (i + 1))

/-- The pieces lead from directory `start` to directory `d`, whose first entry of the last name has
metadata `md`. -/
structure Follows (image : Slice T) (start : ℕ) (pieces : List String) (ids : ℕ → ℕ) (n d : ℕ)
    (md : FileMetadata) : Prop where
  len : pieces.length = n + 1
  start : ids 0 = start
  leads : Leads image pieces ids n
  dir : ids n = d
  last : ∃ name e, pieces[n]? = some name ∧ FirstNamed image d name e ∧ e.metadata = some md

theorem find?_listDir {image : Slice T} {d : ℕ} {name : String} {e : DirEntry} :
    ((listDir image d).toOption.bind fun entries => entries.find? fun e => e.name = name) =
      some e ↔ FirstNamed image d name e := by
  unfold FirstNamed
  cases listDir image d with
  | error err =>
    simp [Except.toOption]
  | ok entries =>
    simp only [Except.toOption, Option.bind_some, List.find?_eq_some_iff_append, decide_eq_true_eq,
      Except.ok.injEq, Bool.not_eq_eq_eq_not, Bool.not_true, decide_eq_false_iff_not]
    constructor
    · rintro ⟨hname, before, after, rfl, hbefore⟩
      exact ⟨before, after, rfl, hname, hbefore⟩
    · rintro ⟨before, after, rfl, hname, hbefore⟩
      exact ⟨hname, before, after, rfl, hbefore⟩

/-- What one component does: the last one is looked up for its metadata, any other for its object
id. -/
theorem findFrom_cons {image : Slice T} {d : ℕ} {name : String} {rest : List String}
    {r : ℕ × FileMetadata} :
    findFrom image d (name :: rest) = some r ↔
      ∃ e, FirstNamed image d name e ∧
        if rest = [] then ∃ md, e.metadata = some md ∧ r = (d, md)
        else ∃ d', e.objectId = some d' ∧ findFrom image d' rest = some r := by
  rw [findFrom, Option.bind_eq_bind, Option.bind_eq_bind, ← Option.bind_assoc,
    Option.bind_eq_some_iff]
  simp only [find?_listDir]
  refine exists_congr fun e => and_congr_right fun _ => ?_
  by_cases hrest : rest = []
  · simp [hrest, eq_comm]
  · simp [hrest, Option.bind_eq_some_iff]

/-- The chain of the pieces behind the first one, one directory on. -/
theorem follows_cons {image : Slice T} {start n d : ℕ} {name : String} {rest : List String}
    {ids : ℕ → ℕ} {md : FileMetadata} :
    Follows image start (name :: rest) ids (n + 1) d md ↔
      ids 0 = start ∧ (∃ e, FirstNamed image start name e ∧ e.objectId = some (ids 1)) ∧
        Follows image (ids 1) rest (fun i => ids (i + 1)) n d md := by
  constructor
  · rintro ⟨hlen, rfl, ⟨-, hstep⟩, hdir, hlast⟩
    obtain ⟨name', e, hname, hfirst, hid⟩ := hstep 0 n.succ_pos
    obtain rfl : name = name' := by simpa using hname
    refine ⟨rfl, ⟨e, hfirst, hid⟩, by simpa using hlen, rfl, ⟨?_, fun i hi => ?_⟩, hdir, ?_⟩
    · simp only [List.length_cons] at hlen
      omega
    · simpa using hstep (i + 1) (by omega)
    · simpa using hlast
  · rintro ⟨rfl, ⟨e, hfirst, hid⟩, hlen, -, ⟨-, hstep⟩, hdir, hlast⟩
    refine ⟨by simpa using hlen, rfl, ⟨by simp [hlen], fun i hi => ?_⟩, hdir, by simpa using hlast⟩
    cases i with
    | zero =>
      exact ⟨name, e, rfl, hfirst, hid⟩
    | succ i =>
      simpa using hstep i (by omega)

theorem findFrom_eq_some {image : Slice T} {start d : ℕ} {pieces : List String}
    {md : FileMetadata} :
    findFrom image start pieces = some (d, md) ↔
      ∃ n ids, Follows image start pieces ids n d md := by
  induction pieces generalizing start with
  | nil =>
    refine iff_of_false (by simp [findFrom]) ?_
    rintro ⟨n, ids, h⟩
    exact absurd h.len (by simp)
  | cons name rest ih =>
    rw [findFrom_cons]
    cases rest with
    | nil =>
      simp only [if_true, Prod.mk.injEq]
      constructor
      · rintro ⟨e, hfirst, md', hmd, rfl, rfl⟩
        exact ⟨0, fun _ => d, rfl, rfl, ⟨Nat.zero_le _, fun i hi => absurd hi i.not_lt_zero⟩, rfl,
          name, e, rfl, hfirst, hmd⟩
      · rintro ⟨n, ids, hlen, rfl, -, hdir, hlast⟩
        obtain rfl : n = 0 := by simpa using hlen
        obtain ⟨name', e, hname, hfirst, hmd⟩ := hlast
        obtain rfl : name = name' := by simpa using hname
        exact ⟨e, hdir ▸ hfirst, md, hmd, hdir.symm, rfl⟩
    | cons name' rest =>
      simp only [List.cons_ne_nil, if_false, ih]
      constructor
      · rintro ⟨e, hfirst, d', hid, n, ids, h⟩
        obtain rfl := h.start
        exact ⟨n + 1, fun | 0 => start | i + 1 => ids i,
          follows_cons.2 ⟨rfl, ⟨e, hfirst, hid⟩, h⟩⟩
      · rintro ⟨n, ids, h⟩
        cases n with
        | zero =>
          exact absurd h.len (by simp)
        | succ n =>
          obtain ⟨-, ⟨e, hfirst, hid⟩, h⟩ := follows_cons.1 h
          exact ⟨e, hfirst, ids 1, hid, n, _, h⟩

theorem findByPath_eq_some {image : Slice T} {path : String} {d : ℕ} {md : FileMetadata} :
    findByPath image path = some (d, md) ↔
      ∃ n ids, Follows image refsRootDirectoryId (components path) ids n d md := by
  rw [← findFrom_eq_some, findByPath]
  split_ifs with h
  · simp [h, findFrom]
  · rfl

/-! ## Slashes -/

/-- The pieces on both sides of a slash. -/
theorem components_append_slash (path rest : String) :
    components (path ++ "/" ++ rest) = components path ++ components rest := by
  simp [components, String.toList_append, List.splitOn_append_cons_self]

theorem components_empty : components "" = [] := by decide

/-- **Slashes only separate**: one at either end of a path, or next to another one, changes
nothing. -/
theorem components_slashes (path rest : String) :
    components ("/" ++ path) = components path ∧ components (path ++ "/") = components path ∧
      components (path ++ "//" ++ rest) = components (path ++ "/" ++ rest) := by
  have hfront (p : String) : components ("/" ++ p) = components p := by
    simpa [components_empty] using components_append_slash "" p
  have hdouble : path ++ "//" ++ rest = path ++ "/" ++ ("/" ++ rest) := by
    simp [String.append_assoc, ← String.toList_inj]
  refine ⟨hfront path, ?_, ?_⟩
  · simpa [components_empty] using components_append_slash path ""
  · rw [hdouble, components_append_slash, components_append_slash, hfront]

/-! ## Dead ends -/

theorem FirstNamed.unique {image : Slice T} {d : ℕ} {name : String} {e e' : DirEntry}
    (h : FirstNamed image d name e) (h' : FirstNamed image d name e') : e = e' :=
  Option.some.inj ((find?_listDir.2 h).symm.trans (find?_listDir.2 h'))

/-- Two chains that start at one directory run through the same ones. -/
theorem Leads.ids_eq {image : Slice T} {pieces : List String} {ids ids' : ℕ → ℕ} {n n' : ℕ}
    (h : Leads image pieces ids n) (h' : Leads image pieces ids' n') (hstart : ids 0 = ids' 0)
    {i : ℕ} (hi : i ≤ n) (hi' : i ≤ n') : ids i = ids' i := by
  induction i with
  | zero => exact hstart
  | succ i ih =>
    obtain ⟨name, e, hname, hfirst, hid⟩ := h.step i hi
    obtain ⟨name', e', hname', hfirst', hid'⟩ := h'.step i hi'
    obtain rfl := Option.some.inj (hname.symm.trans hname')
    rw [ih (by omega) (by omega)] at hfirst
    obtain rfl := hfirst.unique hfirst'
    exact Option.some.inj (hid.symm.trans hid')

/-- Directory `d` leads nowhere by `name`: its listing fails or lacks the name, or, where more
pieces follow, the first entry of the name is no directory. -/
inductive DeadEnd (image : Slice T) (d : ℕ) (name : String) (more : Prop) : Prop
  | failing (e : RefsError) (h : listDir image d = .error e)
  | missing (entries : List DirEntry) (h : listDir image d = .ok entries)
      (hname : ∀ e ∈ entries, e.name ≠ name)
  | noDirectory (e : DirEntry) (h : FirstNamed image d name e) (hid : e.objectId = none)
      (hmore : more)

/-- A dead end has no entry of the name to go on with. -/
theorem DeadEnd.objectId_eq_none {image : Slice T} {d : ℕ} {name : String} {more : Prop}
    (h : DeadEnd image d name more) {e : DirEntry} (he : FirstNamed image d name e) :
    more ∧ e.objectId = none := by
  cases h with
  | failing err h =>
    obtain ⟨before, after, hok, -⟩ := he
    cases h.symm.trans hok
  | missing entries h hname =>
    obtain ⟨before, after, hok, heq, -⟩ := he
    obtain rfl := Except.ok.inj (h.symm.trans hok)
    exact absurd heq (hname e (by simp))
  | noDirectory e' h hid hmore =>
    obtain rfl := he.unique h
    exact ⟨hmore, hid⟩

theorem findByPath_of_deadEnd {image : Slice T} {path name : String} {ids : ℕ → ℕ} {i : ℕ}
    (hstart : ids 0 = refsRootDirectoryId) (h : Leads image (components path) ids i)
    (hname : (components path)[i]? = some name)
    (hdead : DeadEnd image (ids i) name (i + 1 < (components path).length)) :
    findByPath image path = none := by
  rw [Option.eq_none_iff_forall_ne_some]
  rintro ⟨d, md⟩ hsome
  obtain ⟨n, ids', hf⟩ := findByPath_eq_some.1 hsome
  obtain ⟨hi, -⟩ := List.getElem?_eq_some_iff.1 hname
  have hlen := hf.len
  have hdir := h.ids_eq hf.leads (hstart.trans hf.start.symm) (i := i) le_rfl (by omega)
  rcases Nat.lt_or_ge i n with hlt | hge
  · -- the piece leads on to the next directory
    obtain ⟨name', e, hname', hfirst, hid⟩ := hf.leads.step i hlt
    obtain rfl := Option.some.inj (hname.symm.trans hname')
    obtain ⟨-, hnone⟩ := hdead.objectId_eq_none (hdir ▸ hfirst)
    rw [hnone] at hid
    cases hid
  · -- the last piece is looked up in the last directory
    obtain rfl : i = n := by omega
    obtain ⟨name', e, hname', hfirst, -⟩ := hf.last
    obtain rfl := Option.some.inj (hname.symm.trans hname')
    rw [← hf.dir, ← hdir] at hfirst
    obtain ⟨hmore, -⟩ := hdead.objectId_eq_none hfirst
    omega

/-- **Path resolution follows the directory chain**: what is found is what the chain of the pieces
ends at; slashes at the ends and repeated slashes change nothing; and a chain that meets a dead end
finds nothing. -/
theorem findByPath_follows (image : Slice T) (path : String) :
    (∀ d md, findByPath image path = some (d, md) ↔
      ∃ n ids, Follows image refsRootDirectoryId (components path) ids n d md) ∧
    (findByPath image ("/" ++ path) = findByPath image path ∧
      findByPath image (path ++ "/") = findByPath image path ∧
      ∀ rest, findByPath image (path ++ "//" ++ rest) = findByPath image (path ++ "/" ++ rest)) ∧
    ∀ ids i name, ids 0 = refsRootDirectoryId → Leads image (components path) ids i →
      (components path)[i]? = some name →
      DeadEnd image (ids i) name (i + 1 < (components path).length) →
      findByPath image path = none := by
  refine ⟨fun d md => findByPath_eq_some, ⟨?_, ?_, fun rest => ?_⟩, ?_⟩
  · rw [findByPath, (components_slashes path "").1, findByPath]
  · rw [findByPath, (components_slashes path "").2.1, findByPath]
  · rw [findByPath, (components_slashes path rest).2.2, findByPath]
  · exact fun ids i name hstart h hname hdead => findByPath_of_deadEnd hstart h hname hdead

end RefsForensic
