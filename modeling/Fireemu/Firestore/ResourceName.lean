import Fireemu.Firestore.Path
import Fireemu.Firestore.Value

/-!
# Document names

A resource name is read back as the document it names and as nothing else
(`fromResourceName_eq_some`).  The order of paths, the order of their names by segments and the
order of reference values are one order, and the interval above a path that a range scan of its
descendants uses holds its strict descendants and nothing of another database.
-/

namespace Fireemu

open Library (linCmp)
open List

namespace Str

theorem eq_append_of_stripBeginning {beginning s rest : Str}
    (h : stripBeginning beginning s = some rest) : s = beginning ++ rest := by
  unfold stripBeginning at h
  split_ifs at h with hb
  obtain ⟨t, rfl⟩ := isPrefixOf_iff_prefix.1 hb
  rw [drop_left, Option.some.injEq] at h
  rw [h]

theorem eq_append_of_splitOnce {sep s before after : Str}
    (h : splitOnce sep s = some (before, after)) : s = before ++ (sep ++ after) := by
  induction s generalizing before with
  | nil => cases h
  | cons c s ih =>
    unfold splitOnce at h
    split_ifs at h with hsep
    · obtain ⟨t, ht⟩ := isPrefixOf_iff_prefix.1 hsep
      rw [← ht, drop_left] at h
      cases h
      exact ht.symm
    · obtain ⟨⟨before', after'⟩, hrest, heq⟩ := Option.map_eq_some_iff.1 h
      cases heq
      rw [ih hrest, cons_append]

end Str

namespace DocumentPath

variable {p : DocumentPath}

/-- What is parsed keeps the database it was parsed in and renders as the text parsed. -/
theorem parse_ok {project : ProjectId} {database : DatabaseId} {text : Str}
    (h : parse project database text = .ok p) :
    p.project = project ∧ p.database = database ∧ p.relative = text := by
  unfold parse at h
  split_ifs at h with he
  dsimp only at h
  by_cases hodd : (text.splitOn '/').length % 2 ≠ 0
  · rw [dif_pos hodd] at h
    cases h
  rw [dif_neg hodd] at h
  split at h
  · cases h
  · rename_i pairs hp
    split_ifs at h with hd
    cases h
    refine ⟨rfl, rfl, ?_⟩
    change relativePath pairs = text
    rw [relativePath, parsePairs_ok hp (by simpa using hodd)]
    exact intercalate_splitOn '/'

theorem toOption_eq_some {ε α : Type*} {x : Except ε α} {a : α} : x.toOption = some a ↔ x = .ok a := by
  cases x <;> simp [Except.toOption]

/-- A name that is read as a document is the name of that document. -/
theorem fromResourceName_eq_some {name : Str} (h : fromResourceName name = some p) :
    p.resourceName = name := by
  unfold fromResourceName at h
  simp only [Option.bind_eq_bind, Option.bind_eq_some_iff, Prod.exists, toOption_eq_some] at h
  obtain ⟨rest, hrest, project, rest', hproject, database, text, hdb, project', hproject',
    database', hdb', hparse⟩ := h
  obtain ⟨hp, hd, ht⟩ := parse_ok hparse
  rw [resourceName, hp, hd, ht, tryNew_ok hproject', tryNew_ok hdb',
    ← Str.eq_append_of_splitOnce hdb, ← Str.eq_append_of_splitOnce hproject,
    ← Str.eq_append_of_stripBeginning hrest]

variable {q : DocumentPath}

/-- Reference values order as the documents they name. -/
theorem canonicalCmp_reference :
    Value.canonicalCmp (.reference p.resourceName) (.reference q.resourceName) = linCmp p q := by
  rw [← cmpResourceName_eq, cmpResourceName, ← splitOn_resourceName, ← splitOn_resourceName]
  rfl

/-- A key between a path and its bound has the path's project and database. -/
theorem sameDatabase_of_lt_of_lt (hp : p.key < q.key) (hb : q.key < p.descendantsUpperBound) :
    q.SameDatabase p := by
  rw [key, key, Prod.Lex.toLex_lt_toLex, Prod.Lex.toLex_lt_toLex] at hp
  rw [key, descendantsUpperBound, Prod.Lex.toLex_lt_toLex, Prod.Lex.toLex_lt_toLex] at hb
  have hproject : q.project.1 = p.project.1 := by
    rcases hp with hp | ⟨hp, -⟩
    · rcases hb with hb | ⟨hb, -⟩
      · exact absurd hb hp.asymm
      · exact hb
    · exact hp.symm
  rw [hproject] at hp hb
  simp only [lt_irrefl, false_or, true_and] at hp hb
  have hd : q.database.1 = p.database.1 := by
    rcases hp with hp | ⟨hp, -⟩
    · rcases hb with hb | ⟨hb, -⟩
      · exact absurd hb hp.asymm
      · exact hb
    · exact hp.symm
  exact ⟨Subtype.ext hproject, Subtype.ext hd⟩

/-- The names and the orders of document paths agree. -/
theorem path_order_and_names_agree (p q : DocumentPath) :
    fromResourceName p.resourceName = some p ∧
    (∀ name, fromResourceName name = some p → p.resourceName = name) ∧ linCmp p q = p.cmpResourceName q ∧
    linCmp p q = Value.canonicalCmp (.reference p.resourceName) (.reference q.resourceName) ∧
    ((p.key < q.key ∧ q.key < p.descendantsUpperBound) ↔ q.project = p.project ∧ q.database = p.database ∧
        ∃ below, below ≠ [] ∧ q.pairs = p.pairs ++ below) := by
  refine ⟨fromResourceName_resourceName p, fun _ => fromResourceName_eq_some,
    cmpResourceName_eq.symm, canonicalCmp_reference.symm, ?_⟩
  constructor
  · rintro ⟨hp, hbound⟩
    have hdb := sameDatabase_of_lt_of_lt hp hbound
    exact ⟨hdb.1, hdb.2, isStrictDescendant_iff.1 ((mem_descendants_iff hdb).1 ⟨hp, hbound⟩)⟩
  · rintro ⟨hproject, hdatabase, hbelow⟩
    exact (mem_descendants_iff ⟨hproject, hdatabase⟩).2 (isStrictDescendant_iff.2 hbelow)

end DocumentPath

end Fireemu
