import CodeBackup.Property.Splice

/-!
# How a rewritten file is read

`op_prop_file` changes one line of the file, and may hide or join the lines
that the replaced bytes span. `Relined` bounds what the new file can hold:
lines of the old one, and one new line; so the new file can be loaded if the
old one could with some room (`Relined.loadsTo_iff`). `bindings_splice` tells
where in the log of the new file the replaced value counts.
-/

namespace CodeBackup.Property

open C C.Outcome CStr Binding

/-! ## Lines of a text, cut at a place -/

theorem segments_closed {p : List UInt8} (closed : Closed p) (x : List UInt8) :
    segments (p ++ x) = (segments p).dropLast ++ segments x := by
  rcases closed with rfl | ⟨y, rfl⟩
  · rfl
  · rw [List.append_assoc, List.singleton_append, segments_newline, segments_newline]
    simp [segments, segmentsFrom]

/-- The end of a line, and what stands behind it. -/
def EndsLine (z rest : List UInt8) : Prop := (z = [] ∧ rest = []) ∨ z = chNewline :: rest

/-- The bytes that the values in some lines take in a pool. -/
def lineSize (ls : List (List UInt8)) : Nat := textSize ((ls.filterMap lineBinding).map Prod.snd)

@[simp] theorem lineSize_append (ls ls' : List (List UInt8)) : lineSize (ls ++ ls') = lineSize ls + lineSize ls' := by
  simp [lineSize]

theorem lineSize_sublist {ls ls' : List (List UInt8)} (h : ls.Sublist ls') : lineSize ls ≤ lineSize ls' :=
  textSize_sublist ((h.filterMap _).map _)

/-- No line binds more than `PROP_VALUE_MAX` bytes. -/
theorem lineSize_line (line : List UInt8) : lineSize [line] ≤ propValueMax := by
  unfold lineSize
  rcases h : lineBinding line with _ | ⟨key, value⟩
  · simp [h]
  · have := (lineBinding_some h).2
    simp [h]
    omega

theorem valueSize_eq (content : List UInt8) : valueSize content = lineSize (segments content) := rfl

theorem lineBinding_nil : lineBinding [] = none := by decide

theorem lines_nil : lines [] = [[]] := rfl

theorem lineSize_nil : lineSize [[]] = 0 := by decide

/-- The text `out` has the lines of `mem`, and the line `new`. -/
structure Relined (mem out new : List UInt8) : Prop where
  lines : ∀ line ∈ segments out, line = new ∨ line ∈ segments mem ∨ line = []
  size : valueSize out ≤ valueSize mem + propValueMax

namespace Relined

variable {mem out new : List UInt8}

/-- Lines of `mem` give way to the line `new`. -/
theorem replace {pre mid post : List (List UInt8)} (hmem : segments mem = pre ++ mid)
    (hout : segments out = pre ++ new :: post) (hpost : post.Sublist mid) : Relined mem out new where
  lines line hl := by
    rw [hout] at hl
    rcases List.mem_append.1 hl with hl | hl
    · exact .inr (.inl (by rw [hmem]; exact List.mem_append_left _ hl))
    · rcases List.mem_cons.1 hl with rfl | hl
      · exact .inl rfl
      · exact .inr (.inl (by rw [hmem]; exact List.mem_append_right _ (hpost.subset hl)))
  size := by
    have line := lineSize_line new
    have sub := lineSize_sublist hpost
    rw [valueSize_eq, valueSize_eq, hmem, hout, ← List.singleton_append]
    simp only [lineSize_append]
    omega

/-- The last line of `mem` gives way to the line `new`, which a newline ends. -/
theorem append {pre : List (List UInt8)} {last : List UInt8} (hmem : segments mem = pre ++ [last])
    (hout : segments out = pre ++ [new, []]) : Relined mem out new where
  lines line hl := by
    rw [hout] at hl
    rcases List.mem_append.1 hl with hl | hl
    · exact .inr (.inl (by rw [hmem]; exact List.mem_append_left _ hl))
    · rcases List.mem_cons.1 hl with rfl | hl
      · exact .inl rfl
      · exact .inr (.inr (by simpa using hl))
  size := by
    have line := lineSize_line new
    rw [valueSize_eq, valueSize_eq, hmem, hout, ← List.singleton_append]
    simp only [lineSize_append, lineSize_nil]
    omega

theorem importFree (h : Relined mem out new) (free : ImportFree mem)
    (plain : ¬ importPrefix.bytes <+: trimStart new) : ImportFree out := by
  intro line hl
  rcases h.lines line hl with rfl | hl | rfl
  · exact plain
  · exact free line hl
  · decide

/-- **The new file can be loaded.** -/
theorem loadsTo_iff (h : Relined mem out new) (free : ImportFree mem)
    (plain : ¬ importPrefix.bytes <+: trimStart new) (fits : valueSize mem + propValueMax ≤ blocksize)
    {files : Files} (file : files propPathSystemBuild = some out) {f : CStr → Option CStr} :
    LoadsTo files f ↔ ∀ k, f k = lastOf (bindings out) k :=
  Property.loadsTo_iff file (h.importFree free plain)
    ((textSize_bindings out).trans (h.size.trans fits))

end Relined

/-! ## The log of a text, cut at a place -/

theorem bindings_closed {p : List UInt8} (nul : 0 ∉ p) (closed : Closed p) (x : List UInt8) :
    bindings (p ++ x) = (segments p).dropLast.filterMap lineBinding ++ bindings x := by
  rw [bindings, lines_closed nul closed, List.filterMap_append]
  rfl

theorem bindings_line {x z rest : List UInt8} (nul : 0 ∉ x) (nl : chNewline ∉ x) (ends : EndsLine z rest) :
    bindings (x ++ z) = (lineBinding x).toList ++ bindings rest := by
  rcases ends with ⟨rfl, rfl⟩ | rfl
  · rw [List.append_nil, bindings, lines_of_nulFree nul, segments_line nl, bindings, lines_nil]
    cases h : lineBinding x <;> simp [h, lineBinding_nil]
  · rw [bindings, lines_newline nul, segments_line nl]
    cases h : lineBinding x <;> simp [h, bindings]

/-- A line that a NUL ends is not read. -/
theorem bindings_line_nul {x : List UInt8} (nul : 0 ∉ x) (nl : chNewline ∉ x) (rest : List UInt8) :
    bindings (x ++ 0 :: rest) = [] := by
  rw [bindings, lines_nul nul, segments_line nl]
  rfl

/-- Behind a NUL nothing counts. -/
theorem lines_nul_congr {p : List UInt8} (nul : 0 ∈ p) (x x' : List UInt8) : lines (p ++ x) = lines (p ++ x') := by
  obtain ⟨a, b, rfl, ha⟩ := List.eq_append_cons_of_mem nul
  simp only [List.append_assoc, List.cons_append]
  rw [lines_nul ha, lines_nul ha]

/-! ## The file after a rewrite -/

namespace Splice

variable {key : CStr} {old : Nat} {mem p : List UInt8} {c : UInt8} {w y : List UInt8}

/-- The key's text does not stand before the place. -/
theorem not_infix (h : Splice key old mem p c w y) (pos : 0 < key.strlen) : ¬ key.bytes <:+: p := by
  rintro ⟨a, b, e⟩
  have len : p.length = a.length + (key.strlen + b.length) := by
    rw [← e]
    simp [strlen]
  apply h.first a.length (by omega)
  rw [h.parts, ← e, List.append_assoc, List.append_assoc, List.drop_left]
  exact List.prefix_append _ _

end Splice

/-- Lines that do not hold the key's text do not bind it. -/
theorem lastOf_absent {key : CStr} {p : List UInt8} (nul : 0 ∉ p) (absent : ¬ key.bytes <:+: p) :
    lastOf ((segments p).dropLast.filterMap lineBinding) key = none := by
  refine lastOf_eq_none.2 fun e he eq => absent ?_
  obtain ⟨line, hl, hb⟩ := List.mem_filterMap.1 he
  have part := infix_of_mem_segments (List.mem_of_mem_dropLast hl)
  obtain ⟨u, b, b', b'', -, -, -, -, rfl⟩ := @lineBinding_shape line e.1 e.2
    (fun h => nul (part.subset h)) hb
  rw [← eq]
  exact List.IsInfix.trans (List.infix_append' _ _ _) part

/-- A line that ends with the key's text does not bind it. -/
theorem lastOf_key_line {key : CStr} (pk : Persistent key) {u : List UInt8} (nul : 0 ∉ u)
    (absent : ¬ key.bytes <:+: u) : lastOf (lineBinding (u ++ key.bytes)).toList key = none := by
  apply lastOf_eq_none.2
  intro e he eq
  obtain ⟨k, v⟩ := e
  obtain rfl : k = key := eq
  have hb : lineBinding (u ++ k.bytes) = some (k, v) := by simpa using he
  obtain ⟨u', b, b', b'', hu, hb, -, -, e⟩ := lineBinding_shape (by simp [nul, k.nulFree]) hb
  rcases key_place pk hu hb (p := u) (z := []) (by simpa using e.symm) with rfl | ⟨d, rfl, -⟩
  · have := congrArg List.length e
    simp at this
  · exact absent (List.infix_append' _ _ _)

/-- The line on which the value stands that is written behind `key` and `c`. -/
def valueLine (key : CStr) (u : List UInt8) (c : UInt8) (v x : List UInt8) : List UInt8 :=
  if c = chNewline then v ++ x else u ++ (key.bytes ++ c :: (v ++ x))

theorem solids_valueLine (key : CStr) (u : List UInt8) (c : UInt8) (v x : List UInt8) :
    solids (valueLine key u c v x) = solids (valueLine key u c [] x) + solids v := by
  unfold valueLine
  split <;> simp <;> omega

/-- How the new text is read: `log` is what is bound before the line of the value, `rest` the text behind it. -/
structure Reread (key : CStr) (p u : List UInt8) (c : UInt8) (y x z rest : List UInt8)
    (log : List (CStr × CStr)) : Prop where
  line : y = x ++ z
  ends : EndsLine z rest
  noNewline : chNewline ∉ x
  clean : 0 ∉ x
  nulFree : ∀ v, 0 ∉ v → 0 ∉ valueLine key u c v x
  absent : lastOf log key = none
  before : c ≠ chNewline → log = (segments p).dropLast.filterMap lineBinding
  read : ∀ v, 0 ∉ v → chNewline ∉ v → bindings (p ++ u ++ (key.bytes ++ c :: (v ++ y))) =
    log ++ ((lineBinding (valueLine key u c v x)).toList ++ bindings rest)

/-- **The new text** is read so, or a NUL hides the value and the key is not bound. -/
theorem bindings_splice {key : CStr} (pk : Persistent key) {p u : List UInt8} (nul : 0 ∉ p ++ u) (closed : Closed p)
    (line : chNewline ∉ u) (absent : ¬ key.bytes <:+: p ++ u) (c : UInt8) (y : List UInt8) :
    (∃ log, lastOf log key = none ∧ ∀ v, 0 ∉ v → chNewline ∉ v →
      bindings (p ++ u ++ (key.bytes ++ c :: (v ++ y))) = log) ∨
    ∃ x z rest log, Reread key p u c y x z rest log := by
  have nulp : 0 ∉ p := fun h => nul (List.mem_append_left _ h)
  have nulu : 0 ∉ u := fun h => nul (List.mem_append_right _ h)
  set A := (segments p).dropLast.filterMap lineBinding with hA
  have absentA : lastOf A key = none :=
    lastOf_absent nulp fun h => absent (h.trans (List.prefix_append p u).isInfix)
  have split : ∀ x, bindings (p ++ u ++ x) = A ++ bindings (u ++ x) := fun x => by
    rw [List.append_assoc, bindings_closed nulp closed]
  have nulKey : 0 ∉ u ++ key.bytes := by simp [nulu, key.nulFree]
  have nlKey : chNewline ∉ u ++ key.bytes := by simp [line, pk.noNewline]
  obtain ⟨x, z, rfl, nlx, nulx, hz⟩ := exists_line y
  -- what stands before the line of the value is fixed; the line counts unless a NUL ends it
  have finish : ∀ log, lastOf log key = none → (c ≠ chNewline → log = A) →
      (∀ v, bindings (p ++ u ++ (key.bytes ++ c :: (v ++ (x ++ z)))) = log ++ bindings (valueLine key u c v x ++ z)) →
      (∀ v, 0 ∉ v → 0 ∉ valueLine key u c v x) → (∀ v, chNewline ∉ v → chNewline ∉ valueLine key u c v x) →
      (∃ log, lastOf log key = none ∧ ∀ v, 0 ∉ v → chNewline ∉ v →
        bindings (p ++ u ++ (key.bytes ++ c :: (v ++ (x ++ z)))) = log) ∨
      ∃ x' z' rest log, Reread key p u c (x ++ z) x' z' rest log := by
    intro log absentLog before read nulLine nlLine
    rcases hz with rfl | ⟨rest, rfl⟩ | ⟨rest, rfl⟩
    · exact .inr ⟨x, [], [], log, rfl, .inl ⟨rfl, rfl⟩, nlx, nulx, nulLine, absentLog, before, fun v nulv nlv => by
        rw [read, bindings_line (nulLine v nulv) (nlLine v nlv) (.inl ⟨rfl, rfl⟩)]⟩
    · exact .inr ⟨x, _, rest, log, rfl, .inr rfl, nlx, nulx, nulLine, absentLog, before, fun v nulv nlv => by
        rw [read, bindings_line (nulLine v nulv) (nlLine v nlv) (.inr rfl)]⟩
    · exact .inl ⟨log, absentLog, fun v nulv nlv => by
        rw [read, bindings_line_nul (nulLine v nulv) (nlLine v nlv), List.append_nil]⟩
  by_cases nulc : c = 0
  · refine .inl ⟨A, absentA, fun v _ _ => ?_⟩
    rw [split, nulc, ← List.append_assoc, bindings_line_nul nulKey nlKey, List.append_nil]
  by_cases nlc : c = chNewline
  · have absentKey : lastOf (A ++ (lineBinding (u ++ key.bytes)).toList) key = none := by
      rw [lastOf_append, absentA, Option.or_none]
      exact lastOf_key_line pk nulu fun h => absent (h.trans (List.suffix_append p u).isInfix)
    refine finish _ absentKey (fun h => absurd nlc h) (fun v => ?_) (fun v nulv => ?_) (fun v nlv => ?_)
    · rw [split, nlc, ← List.append_assoc u, bindings_line nulKey nlKey (.inr rfl), valueLine, if_pos rfl]
      simp only [List.append_assoc]
    · simp [valueLine, nlc, nulv, nulx]
    · simp [valueLine, nlc, nlv, nlx]
  · refine finish A absentA (fun _ => rfl) (fun v => ?_) (fun v nulv => ?_) (fun v nlv => ?_)
    · rw [split, valueLine, if_neg nlc]
      simp only [List.append_assoc, List.cons_append]
    · simp [valueLine, nlc, nulu, key.nulFree, Ne.symm nulc, nulv, nulx]
    · simp [valueLine, nlc, line, pk.noNewline, Ne.symm nlc, nlv, nlx]

/-- The first line of a text that begins with part of a line. -/
theorem segments_first {x : List UInt8} (nl : chNewline ∉ x) (y : List UInt8) :
    ∃ h t, segments (x ++ y) = (x ++ h) :: t := by
  rcases cut_cases chNewline y with ⟨nly, -⟩ | ⟨h, t, rfl, nlh, -⟩
  · exact ⟨y, [], segments_line (by simp [nl, nly])⟩
  · refine ⟨h, segments t, ?_⟩
    rw [← List.append_assoc, segments_newline, segments_line (by simp [nl, nlh])]
    rfl

/-- **The rewrite relines the file**, and makes an import at most of a value that begins a line. -/
theorem Splice.relined {key : CStr} (pk : Persistent key) {old : Nat} {mem p u : List UInt8} {c : UInt8}
    {w y : List UInt8} (h : Splice key old mem (p ++ u) c w y) (closed : Closed p) (line : chNewline ∉ u)
    {v : List UInt8} (nlv : chNewline ∉ v) :
    ∃ x, x <+: y ∧ Relined mem (p ++ u ++ (key.bytes ++ c :: (v ++ y))) (valueLine key u c v x) ∧
      (c ≠ chNewline → ImportFree mem → ¬ importPrefix.bytes <+: trimStart (valueLine key u c v x)) := by
  have nlKey : chNewline ∉ u ++ key.bytes := by simp [line, pk.noNewline]
  have hmem : mem = p ++ ((u ++ key.bytes) ++ c :: (w ++ y)) := by rw [h.parts]; simp
  have hout : p ++ u ++ (key.bytes ++ c :: (v ++ y)) = p ++ ((u ++ key.bytes) ++ c :: (v ++ y)) := by simp
  have ends : ∃ x post, x <+: y ∧ chNewline ∉ x ∧ (∀ l, chNewline ∉ l → segments (l ++ y) = (l ++ x) :: post) ∧
      ∀ l, ∃ mid, segments (l ++ y) = mid ++ post := by
    rcases cut_cases chNewline y with ⟨nly, -⟩ | ⟨x, r, rfl, nlx, -⟩
    · exact ⟨y, [], List.prefix_rfl, nly, fun l hl => segments_line (by simp [hl, nly]),
        fun l => ⟨_, (List.append_nil _).symm⟩⟩
    · refine ⟨x, segments r, List.prefix_append _ _, nlx, fun l hl => ?_, fun l => ⟨segments (l ++ x), ?_⟩⟩
      · rw [← List.append_assoc, segments_newline, segments_line (by simp [hl, nlx])]
        rfl
      · rw [← List.append_assoc, segments_newline]
  obtain ⟨x, post, prefix_, nlx, new, old_⟩ := ends
  refine ⟨x, prefix_, ?_, fun nlc free => ?_⟩
  · by_cases nlc : c = chNewline
    · obtain ⟨mid, hmid⟩ := old_ w
      have before : segments mem = ((segments p).dropLast ++ [u ++ key.bytes]) ++ (mid ++ post) := by
        rw [hmem, segments_closed closed, nlc, segments_newline, segments_line nlKey, hmid]
        simp
      have after : segments (p ++ u ++ (key.bytes ++ c :: (v ++ y))) =
          ((segments p).dropLast ++ [u ++ key.bytes]) ++ valueLine key u c v x :: post := by
        rw [hout, segments_closed closed, nlc, segments_newline, segments_line nlKey, new v nlv, valueLine, if_pos rfl]
        simp
      exact .replace before after (List.sublist_append_right _ _)
    · obtain ⟨mid, hmid⟩ := old_ ((u ++ key.bytes) ++ c :: w)
      have before : segments mem = (segments p).dropLast ++ (mid ++ post) := by
        rw [hmem, segments_closed closed, ← hmid]
        simp
      have after : segments (p ++ u ++ (key.bytes ++ c :: (v ++ y))) =
          (segments p).dropLast ++ valueLine key u c v x :: post := by
        have : segments ((u ++ key.bytes) ++ c :: v ++ y) = ((u ++ key.bytes) ++ c :: v ++ x) :: post :=
          new _ (by simp [line, pk.noNewline, Ne.symm nlc, nlv])
        rw [hout, segments_closed closed, valueLine, if_neg nlc]
        simpa using this
      exact .replace before after (List.sublist_append_right _ _)
  · obtain ⟨first, tail, hfirst⟩ := segments_first nlKey (c :: (w ++ y))
    have plain := free ((u ++ key.bytes) ++ first) (by
      rw [hmem, segments_closed closed, hfirst]
      simp)
    rw [valueLine, if_neg nlc]
    rw [List.append_assoc] at plain
    exact pk.not_import_append (not_import_of_append plain) _

end CodeBackup.Property
