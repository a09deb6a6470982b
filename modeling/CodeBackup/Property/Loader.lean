import CodeBackup.Property.Lines

/-!
# The loader reads lines

`load_properties` walks through its buffer with pointers and cuts the lines in
place. For a text it does exactly what `lineAction` says, line by line
(`loadProperties_eq`): the terminators it writes never reach a line that is
still to be read.
-/

namespace CodeBackup.Property

open C C.Outcome

section

variable {σ : Type} (add : CStr → CStr → σ → Outcome σ) (importFile : CStr → Option CStr → σ → Outcome σ)

/-- What the loader does for a line. -/
def perform : LineAction → σ → Outcome σ
  | .skip, s => .ok s
  | .binding key value, s => add key value s
  | .importing fn filter, s => importFile fn filter s

/-- The lines of a text, in order. -/
def performLines (filter : Option CStr) : List (List UInt8) → σ → Outcome σ
  | [], s => .ok s
  | line :: rest, s => do performLines filter rest (← perform add importFile (lineAction filter line) s)

end

/-! ## Scans of a line -/

/-- The skip over the white space at the start of a string. -/
theorem skipSpace_str (pre l rest : List UInt8) : ∃ sp, l = sp ++ trimStart l ∧
    Buf.skipSpace (pre ++ (l ++ 0 :: rest)) pre.length = .ok (pre.length + sp.length) := by
  obtain ⟨sp, e, space, head⟩ := trimStart_cases l
  refine ⟨sp, e, ?_⟩
  cases h : trimStart l with
  | nil =>
    rw [h, List.append_nil] at e
    rw [e]
    exact Buf.skipSpace_at (by decide) space
  | cons b x =>
    rw [h] at e
    rw [e, List.append_assoc, List.cons_append]
    exact Buf.skipSpace_at (head b x h) space

theorem trimBack_le {key : Nat} : ∀ {n : Nat} {b : Buf}, n ≤ key → Buf.trimBack key n b = .ok b
  | 0, _, _ => rfl
  | n + 1, b, h => by rw [Buf.trimBack, if_neg (by omega)]

/-- The trim of the white space at the end of a string that begins with none. -/
theorem trimBack_str (pre l rest : List UInt8) (head : ∀ b x, l = b :: x → isspace b = false) :
    ∃ zs, zs.length + (trimEnd l).length = l.length ∧
      Buf.trimBack pre.length (pre.length + l.length + 1 - 2) (pre ++ (l ++ 0 :: rest)) =
        .ok (pre ++ (trimEnd l ++ 0 :: (zs ++ rest))) := by
  cases l with
  | nil => exact ⟨[], rfl, trimBack_le (by simp)⟩
  | cons b x =>
    obtain ⟨ys, c, sp, e, hc, space, ht⟩ := trimEnd_cases (x := x) (head b x rfl)
    refine ⟨List.replicate sp.length 0, by rw [ht, e]; simp; omega, ?_⟩
    have trim := @Buf.trimBack_at c pre.length (pre ++ ys) (.inl hc) (by simp) sp (0 :: rest) space
    have tmp : pre.length + (b :: x).length + 1 - 2 = (pre ++ ys).length + sp.length := by simp [e]; omega
    rw [tmp, ht, e]
    have shift : List.replicate sp.length (0 : UInt8) ++ 0 :: rest =
        0 :: (List.replicate sp.length 0 ++ rest) := by
      rw [← List.cons_append, ← List.replicate_succ, List.replicate_succ']
      simp
    rw [shift] at trim
    simpa using trim

/-- What the head of a trimmed text is. -/
theorem trimEnd_head (l : List UInt8) (head : ∀ b x, l = b :: x → isspace b = false) :
    (trimEnd l = [] ↔ l = []) ∧ ∀ b x, trimEnd l = b :: x → isspace b = false := by
  cases l with
  | nil => exact ⟨by simp [trimEnd], by simp [trimEnd]⟩
  | cons b x =>
    have hb := head b x rfl
    obtain ⟨ys, c, sp, e, hc, -, ht⟩ := trimEnd_cases (x := x) hb
    refine ⟨by simp [ht], fun b' x' e' => ?_⟩
    rw [ht] at e'
    cases ys with
    | nil =>
      obtain ⟨rfl, -⟩ : c = b' ∧ [] = x' := by simpa using e'
      exact hc
    | cons y ys =>
      obtain ⟨rfl, -⟩ : y = b' ∧ ys ++ [c] = x' := by simpa using e'
      obtain ⟨rfl, -⟩ : b = y ∧ x = ys ++ c :: sp := by simpa using e
      exact hb

/-! ## One line -/

section

variable {σ : Type} {add : CStr → CStr → σ → Outcome σ} {importFile : CStr → Option CStr → σ → Outcome σ}

theorem str_nulFree {l : List UInt8} (h : 0 ∉ l) (pre rest : List UInt8) :
    Buf.str (pre ++ (l ++ 0 :: rest)) pre.length = .ok (.ofBytes l) := by
  have := Buf.str_at pre (.ofBytes l) rest
  rwa [CStr.ofBytes_bytes h] at this

theorem ofBytes_strlen {l : List UInt8} (h : 0 ∉ l) : (CStr.ofBytes l).strlen = l.length := by
  rw [CStr.strlen, CStr.ofBytes_bytes h]

/-- An `import` line. -/
theorem importLine_spec {arg : List UInt8} (nul : 0 ∉ arg) (pre rest : List UInt8) (s : σ) (key : Nat)
    (hkey : key + 7 = pre.length) : ∃ zs, zs.length = arg.length + 1 ∧
      importLine importFile (pre ++ (arg ++ 0 :: rest)) key s =
        perform add importFile (importAction arg) s >>= fun s' => .ok (pre ++ (zs ++ rest), s') := by
  obtain ⟨sp, e, skip⟩ := skipSpace_str pre arg rest
  set fn := trimStart arg with hfn
  have nulFn : 0 ∉ fn := fun h => nul (by rw [e]; simp [h])
  have whole : pre ++ (arg ++ 0 :: rest) = (pre ++ sp) ++ (fn ++ 0 :: rest) := by rw [e]; simp
  rw [importLine, hkey, skip, ok_bind, whole, ← List.length_append]
  rcases cut_cases chSpace fn with ⟨none_, hc⟩ | ⟨x, y, efn, hx, hc⟩
  · refine ⟨arg ++ [0], by simp, ?_⟩
    rw [Buf.strchr_none (by decide) nulFn none_, ok_bind]
    simp only [str_nulFree nulFn, ok_bind, importAction, ← hfn, hc, perform]
    rw [← whole]
    simp
  · have nulx : 0 ∉ x := fun h => nulFn (by rw [efn]; simp [h])
    have nuly : 0 ∉ y := fun h => nulFn (by rw [efn]; simp [h])
    obtain ⟨sp', e', skip'⟩ := skipSpace_str (pre ++ sp ++ (x ++ [0])) y rest
    have nuly' : 0 ∉ trimStart y := fun h => nuly (by rw [e']; simp [h])
    refine ⟨sp ++ (x ++ 0 :: (y ++ [0])), ?_, ?_⟩
    · rw [e, efn]
      simp
      omega
    set D := (pre ++ sp) ++ (x ++ 0 :: (y ++ 0 :: rest)) with hD
    have write : Buf.write (pre ++ sp ++ (x ++ chSpace :: (y ++ 0 :: rest))) ((pre ++ sp).length + x.length) 0 =
        .ok D := by
      have := Buf.write_at (pre ++ sp ++ x) chSpace 0 (y ++ 0 :: rest)
      simpa [hD, Nat.add_assoc] using this
    have skip₂ : Buf.skipSpace D ((pre ++ sp).length + x.length + 1) =
        .ok ((pre ++ sp ++ (x ++ 0 :: sp')).length) := by
      rw [show (pre ++ sp ++ (x ++ 0 :: sp')).length = (pre ++ sp ++ (x ++ [0])).length + sp'.length by
        simp; omega, ← skip']
      simp [hD, Nat.add_assoc]
    have name : Buf.str D (pre ++ sp).length = .ok (.ofBytes x) := str_nulFree nulx _ _
    have filter : Buf.str D (pre ++ sp ++ (x ++ 0 :: sp')).length = .ok (.ofBytes (trimStart y)) := by
      rw [← str_nulFree nuly' _ rest, hD]
      congr 1
      conv_lhs => rw [e']
      simp
    rw [efn, List.append_assoc x, List.cons_append, Buf.strchr_at nulx hx, ok_bind]
    simp only [write, ok_bind, skip₂, name, filter, importAction, ← hfn, hc, perform]
    simp [hD]

/-- A line that may hold `key=value`, trimmed. -/
theorem bindingLine_spec {b : List UInt8} (nul : 0 ∉ b) (head : ∀ c x, b = c :: x → isspace c = false)
    (filter : Option CStr) (pre rest : List UInt8) (s : σ) : ∃ zs, zs.length = b.length + 1 ∧
      bindingLine add filter (pre ++ (b ++ 0 :: rest)) pre.length s =
        perform add importFile (bindingAction filter b) s >>= fun s' => .ok (pre ++ (zs ++ rest), s') := by
  unfold bindingLine
  rcases cut_cases chEq b with ⟨none_, hc⟩ | ⟨k, v, eb, hk, hc⟩
  · refine ⟨b ++ [0], by simp, ?_⟩
    rw [Buf.strchr_none (by decide) nul none_, ok_bind]
    simp [bindingAction, hc, perform]
  · have nulk : 0 ∉ k := fun h => nul (by rw [eb]; simp [h])
    have nulv : 0 ∉ v := fun h => nul (by rw [eb]; simp [h])
    have headk : ∀ c x, k = c :: x → isspace c = false := fun c x e => head c (x ++ chEq :: v) (by rw [eb, e]; rfl)
    obtain ⟨zs, lz, trim⟩ := trimBack_str pre k (v ++ 0 :: rest) headk
    have nulk' : 0 ∉ trimEnd k := fun h => nulk ((List.rdropWhile_prefix _ _).subset h)
    obtain ⟨sp, ev, skip⟩ := skipSpace_str (pre ++ (trimEnd k ++ 0 :: zs)) v rest
    have nulv' : 0 ∉ trimStart v := fun h => nulv (by rw [ev]; simp [h])
    set D := pre ++ (trimEnd k ++ 0 :: (zs ++ (v ++ 0 :: rest))) with hD
    refine ⟨trimEnd k ++ 0 :: (zs ++ (v ++ [0])), by rw [eb]; simp; omega, ?_⟩
    have find : Buf.strchr chEq (pre ++ (b ++ 0 :: rest)) pre.length = .ok (some (pre.length + k.length)) := by
      rw [eb, List.append_assoc, List.cons_append]
      exact Buf.strchr_at nulk hk
    have write : Buf.write (pre ++ (b ++ 0 :: rest)) (pre.length + k.length) 0 =
        .ok (pre ++ (k ++ 0 :: (v ++ 0 :: rest))) := by
      have := Buf.write_at (pre ++ k) chEq 0 (v ++ 0 :: rest)
      simpa [eb] using this
    have skip₂ : Buf.skipSpace D (pre.length + k.length + 1) =
        .ok ((pre ++ (trimEnd k ++ 0 :: (zs ++ sp))).length) := by
      have at_ : pre.length + k.length + 1 = (pre ++ (trimEnd k ++ 0 :: zs)).length := by simp; omega
      have end_ : (pre ++ (trimEnd k ++ 0 :: (zs ++ sp))).length =
          (pre ++ (trimEnd k ++ 0 :: zs)).length + sp.length := by simp; omega
      rw [at_, end_, ← skip]
      simp [hD]
    have key : Buf.str D pre.length = .ok (.ofBytes (trimEnd k)) := str_nulFree nulk' _ _
    have value : Buf.str D (pre ++ (trimEnd k ++ 0 :: (zs ++ sp))).length = .ok (.ofBytes (trimStart v)) := by
      rw [← str_nulFree nulv' _ rest, hD]
      congr 1
      conv_lhs => rw [ev]
      simp
    have legal : isLegalPropertyName ((CStr.ofBytes (trimEnd k)).bytes ++ [0]) (CStr.ofBytes (trimEnd k)).strlen =
        .ok (legalName (.ofBytes (trimEnd k))) := isLegalPropertyName_spec _ _
    rw [find, ok_bind]
    simp only [write, ok_bind, trim, skip₂, key, legal, bindingAction, hc]
    cases filterAccepts filter (.ofBytes (trimEnd k)) with
    | false => simp [perform, hD]
    | true =>
      cases legalName (.ofBytes (trimEnd k)) with
      | false => simp [perform, hD]
      | true =>
        simp only [Bool.not_true, Bool.and_self, Bool.false_eq_true, if_false, if_true, value, ok_bind, perform]
        simp [hD]

/-- A trimmed line: an `import`, or one that may hold `key=value`. -/
theorem trimmedLine_spec {b : List UInt8} (nul : 0 ∉ b) (head : ∀ c x, b = c :: x → isspace c = false)
    (filter : Option CStr) (pre rest : List UInt8) (s : σ) : ∃ zs, zs.length = b.length + 1 ∧
      (if startsWith (.ofBytes b) importPrefix && decide (filterLen filter = 0) then
          importLine importFile (pre ++ (b ++ 0 :: rest)) pre.length s
        else bindingLine add filter (pre ++ (b ++ 0 :: rest)) pre.length s) =
        perform add importFile
          (if importPrefix.bytes.isPrefixOf b && decide (filterLen filter = 0) then importAction (b.drop 7)
            else bindingAction filter b) s >>= fun s' => .ok (pre ++ (zs ++ rest), s') := by
  rw [startsWith, CStr.ofBytes_bytes nul]
  cases import_ : importPrefix.bytes.isPrefixOf b && decide (filterLen filter = 0) with
  | true =>
    rw [if_pos rfl, if_pos rfl]
    obtain ⟨arg, rfl⟩ : ∃ arg, b = importPrefix.bytes ++ arg := by
      simp only [Bool.and_eq_true] at import_
      obtain ⟨arg, harg⟩ := List.isPrefixOf_iff_prefix.1 import_.1
      exact ⟨arg, harg.symm⟩
    have seven : importPrefix.bytes.length = 7 := by decide
    have nulArg : 0 ∉ arg := fun h => nul (by simp [h])
    obtain ⟨zs, lz, run⟩ := @importLine_spec σ add importFile arg nulArg (pre ++ importPrefix.bytes) rest s
      pre.length (by rw [List.length_append, seven])
    have drop : (importPrefix.bytes ++ arg).drop 7 = arg := by rw [← seven]; simp
    refine ⟨importPrefix.bytes ++ zs, by simp only [List.length_append]; omega, ?_⟩
    rw [drop]
    simpa using run
  | false =>
    rw [if_neg (by simp), if_neg (by simp)]
    exact bindingLine_spec nul head filter pre rest s

/-- **One line** of the loop does what `lineAction` says, and leaves what is behind the line as it was. -/
theorem loadLine_spec {line : List UInt8} (nul : 0 ∉ line) (filter : Option CStr) (pre rest : List UInt8) (s : σ) :
    ∃ done, done.length = pre.length + line.length + 1 ∧
      loadLine add importFile filter (pre ++ (line ++ chNewline :: rest)) pre.length
          (pre.length + line.length + 1) s =
        perform add importFile (lineAction filter line) s >>= fun s' => .ok (done ++ rest, s') := by
  obtain ⟨sp, e, skip⟩ := skipSpace_str pre line rest
  obtain ⟨-, -, -, head⟩ := trimStart_cases line
  set body := trimStart line with hbody
  have nulBody : 0 ∉ body := fun h => nul (by rw [e]; simp [h])
  have len : sp.length + body.length = line.length := by
    conv_rhs => rw [e]
    simp
  have write : Buf.write (pre ++ (line ++ chNewline :: rest)) (pre.length + line.length + 1 - 1) 0 =
      .ok (pre ++ (line ++ 0 :: rest)) := by
    have := Buf.write_at (pre ++ line) chNewline 0 rest
    simpa using this
  have whole : pre ++ (line ++ 0 :: rest) = (pre ++ sp) ++ (body ++ 0 :: rest) := by
    conv_lhs => rw [e]
    simp
  rw [loadLine, write, ok_bind, skip, ok_bind, whole, show pre.length + sp.length = (pre ++ sp).length by simp]
  -- `key` points to the body of the line
  have first : Buf.read (pre ++ sp ++ (body ++ 0 :: rest)) (pre ++ sp).length = .ok (body.head?.getD 0) := by
    cases body with
    | nil => exact Buf.read_at _ _ _
    | cons c x => exact Buf.read_at _ _ _
  rw [first, ok_bind]
  by_cases hash : body.head? = some chHash
  · refine ⟨pre ++ sp ++ (body ++ [0]), by simp; omega, ?_⟩
    simp [lineAction, ← hbody, hash, perform]
  · have notHash : ¬ body.head?.getD 0 = chHash := by
      cases h : body.head? with
      | none => decide
      | some c => simpa [h] using hash
    obtain ⟨zs, lz, trimmed⟩ := trimBack_str (pre ++ sp) body rest head
    have tmp : pre.length + line.length + 1 - 2 = (pre ++ sp).length + body.length + 1 - 2 := by
      rw [List.length_append]
      omega
    have nulTrim : 0 ∉ trimEnd body := fun h => nulBody ((List.rdropWhile_prefix _ _).subset h)
    obtain ⟨zs', lz', run⟩ := @trimmedLine_spec σ add importFile _ nulTrim (trimEnd_head body head).2 filter
      (pre ++ sp) (zs ++ rest) s
    refine ⟨pre ++ sp ++ (zs' ++ zs), by simp only [List.length_append]; omega, ?_⟩
    rw [if_neg notHash, tmp, trimmed, ok_bind, str_nulFree nulTrim, ok_bind, run, lineAction, ← hbody, if_neg hash,
      trim, ← hbody]
    simp

/-! ## The loop -/

/-- The loop, from the start of a line: it reads to the NUL that is there. -/
theorem loadLoop_spec (filter : Option CStr) : ∀ {n : Nat} {text pre : List UInt8} {s : σ}, text.length < n →
    0 ∈ text → loadLoop add importFile filter n (pre ++ text) pre.length s =
      performLines add importFile filter (linesFrom [] text) s
  | 0, text, _, _, hn, _ => by omega
  | n + 1, text, pre, s, hn, nul => by
    obtain ⟨x, y, rfl, hx⟩ := List.eq_append_cons_of_mem nul
    rw [loadLoop, linesFrom_nul hx]
    rcases cut_cases chNewline x with ⟨nl, -⟩ | ⟨line, rest, rfl, nl, -⟩
    · rw [Buf.strchr_none (by decide) hx nl, ok_bind, segmentsFrom_line nl]
      rfl
    · have nulLine : 0 ∉ line := fun h => hx (by simp [h])
      have nulRest : 0 ∉ rest := fun h => hx (by simp [h])
      obtain ⟨done, ldone, run⟩ := @loadLine_spec σ add importFile _ nulLine filter pre
        (rest ++ 0 :: y) s
      have whole : pre ++ (line ++ chNewline :: rest ++ 0 :: y) = pre ++ (line ++ chNewline :: (rest ++ 0 :: y)) := by
        simp
      rw [whole, Buf.strchr_at nulLine nl, ok_bind]
      simp only [run]
      have segs : (segmentsFrom [] (line ++ chNewline :: rest)).dropLast = line :: (segmentsFrom [] rest).dropLast := by
        rw [segmentsFrom_newline, segmentsFrom_line nl]
        exact List.dropLast_cons_of_ne_nil (segmentsFrom_ne_nil _ _)
      rw [segs, performLines]
      cases perform add importFile (lineAction filter line) s with
      | error e => rfl
      | ok s' =>
        simp only [ok_bind, ← ldone]
        rw [loadLoop_spec filter (by simp at hn ⊢; omega) (by simp), linesFrom_nul nulRest]

/-- **`load_properties`** reads the lines of the file. -/
theorem loadProperties_eq (filter : Option CStr) (content : List UInt8) (s : σ) :
    loadProperties add importFile (content ++ [chNewline, 0]) filter s =
      performLines add importFile filter (lines content) s :=
  @loadLoop_spec σ add importFile filter _ _ [] s (Nat.lt_succ_self _) (by simp)

/-! ## Two loads in step -/

variable {R : σ → σ → Prop}

theorem performLines_rel (adds : ∀ k v s s', legalName k → R s s' → Rel R (add k v s) (add k v s'))
    (imports : ∀ fn filter s s', R s s' → Rel R (importFile fn filter s) (importFile fn filter s'))
    (filter : Option CStr) :
    ∀ (ls : List (List UInt8)) {s s' : σ}, R s s' →
      Rel R (performLines add importFile filter ls s) (performLines add importFile filter ls s')
  | [], _, _, h => .ok h
  | line :: ls, s, s', h => by
    have first : Rel R (perform add importFile (lineAction filter line) s)
        (perform add importFile (lineAction filter line) s') := by
      cases act : lineAction filter line with
      | skip => exact .ok h
      | binding key value => exact adds key value s s' (lineAction_legal act) h
      | importing fn filter => exact imports fn filter s s' h
    exact first.bind fun s₁ s₁' h₁ => performLines_rel adds imports filter ls h₁

/-- **Two loads** of the same file from related states end alike. -/
theorem loadPropertiesFromFile_rel (adds : ∀ k v s s', legalName k → R s s' → Rel R (add k v s) (add k v s'))
    (files : Files) : ∀ (depth : Nat) (fn : CStr) (filter : Option CStr) {s s' : σ}, R s s' →
      Rel R (loadPropertiesFromFile add files depth fn filter s) (loadPropertiesFromFile add files depth fn filter s')
  | 0, _, _, _, _, _ => .error _
  | depth + 1, fn, filter, s, s', h => by
    rw [loadPropertiesFromFile, loadPropertiesFromFile]
    cases file : files fn with
    | none =>
      simp only [readFile, file, Option.map_none]
      exact .ok h
    | some content =>
      simp only [readFile, file, Option.map_some]
      rw [loadProperties_eq, loadProperties_eq]
      apply performLines_rel adds _ filter (lines content) h
      intro fn filter s₁ s₁' h₁
      exact loadPropertiesFromFile_rel adds files depth fn filter h₁

/-- **A load** keeps what every `add` of a legal key keeps, whatever the files hold. -/
theorem loadPropertiesFromFile_keeps {P : σ → Prop}
    (adds : ∀ k v s s', legalName k → P s → add k v s = .ok s' → P s') {files : Files} {depth : Nat} {fn : CStr}
    {filter : Option CStr} {s s' : σ} (h : P s) (run : loadPropertiesFromFile add files depth fn filter s = .ok s') :
    P s' := by
  -- the load and itself, in step
  have same : ∀ k v s₁ s₂, legalName k → (s₁ = s₂ ∧ P s₁) →
      Rel (fun a b => a = b ∧ P a) (add k v s₁) (add k v s₂) := by
    rintro k v s₁ _ legal ⟨rfl, h₁⟩
    cases run₁ : add k v s₁ with
    | error e => exact .error e
    | ok s₂ => exact .ok ⟨rfl, adds k v s₁ s₂ legal h₁ run₁⟩
  have both := loadPropertiesFromFile_rel same files depth fn filter (s := s) ⟨rfl, h⟩
  rw [run] at both
  cases both with
  | ok h' => exact h'.2

/-! ## Two loads with different stores -/

/-- Both runs return the same good state, or both are nested too deep. -/
inductive SameEnd (P : σ → Prop) : Outcome σ → Outcome σ → Prop where
  | ok {s : σ} (h : P s) : SameEnd P (.ok s) (.ok s)
  | deep : SameEnd P (.error .depthBound) (.error .depthBound)

variable {P : σ → Prop} {add' : CStr → CStr → σ → Outcome σ} {importFile' : CStr → Option CStr → σ → Outcome σ}

theorem SameEnd.bind {x y : Outcome σ} {f g : σ → Outcome σ} (h : SameEnd P x y)
    (next : ∀ s, P s → SameEnd P (f s) (g s)) : SameEnd P (x >>= f) (y >>= g) := by
  cases h with
  | ok h => exact next _ h
  | deep => exact .deep

theorem performLines_sameEnd (adds : ∀ k v s, legalName k → P s → SameEnd P (add k v s) (add' k v s))
    (imports : ∀ fn filter s, P s → SameEnd P (importFile fn filter s) (importFile' fn filter s))
    (filter : Option CStr) : ∀ (ls : List (List UInt8)) {s : σ}, P s →
      SameEnd P (performLines add importFile filter ls s) (performLines add' importFile' filter ls s)
  | [], _, h => .ok h
  | line :: ls, s, h => by
    have first : SameEnd P (perform add importFile (lineAction filter line) s)
        (perform add' importFile' (lineAction filter line) s) := by
      cases act : lineAction filter line with
      | skip => exact .ok h
      | binding key value => exact adds key value s (lineAction_legal act) h
      | importing fn filter => exact imports fn filter s h
    exact first.bind fun s₁ h₁ => performLines_sameEnd adds imports filter ls h₁

/-- **A load** returns or is nested too deep, if every `add` returns; and so it does with an `add` that does the same. -/
theorem loadPropertiesFromFile_sameEnd (adds : ∀ k v s, legalName k → P s → SameEnd P (add k v s) (add' k v s))
    (files : Files) : ∀ (depth : Nat) (fn : CStr) (filter : Option CStr) {s : σ}, P s →
      SameEnd P (loadPropertiesFromFile add files depth fn filter s)
        (loadPropertiesFromFile add' files depth fn filter s)
  | 0, _, _, _, _ => .deep
  | depth + 1, fn, filter, s, h => by
    rw [loadPropertiesFromFile, loadPropertiesFromFile]
    cases file : files fn with
    | none =>
      simp only [readFile, file, Option.map_none]
      exact .ok h
    | some content =>
      simp only [readFile, file, Option.map_some]
      rw [loadProperties_eq, loadProperties_eq]
      apply performLines_sameEnd adds _ filter (lines content) h
      intro fn filter s₁ h₁
      exact loadPropertiesFromFile_sameEnd adds files depth fn filter h₁

end

end CodeBackup.Property
