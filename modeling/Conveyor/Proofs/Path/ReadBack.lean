import Conveyor.Proofs.Path.Reading
import Mathlib.Data.List.Induction

/-!
# Which paths are read back

A path is read back from its text if and only if no key between quotes ends in a backslash, and the
path does not end in a plain key that ends in a blank (`Path.parse_text_iff_keysClose_and_firm`).
A backslash at the end of a key takes away the meaning of the closing quote, so that a quote is read
where the backslash was; what follows may then be read as part of this key or not at all, but the
key is lost (`Path.parseSegments_ne_of_backslash`).
-/

namespace Conveyor

namespace Path

variable {quote c : Char} {acc cs key rest : List Char} {name : String} {segments : List Segment}
  {p : Path}

/-! ### Keys that are not closed -/

/-- What is read for a key begins with what has been read so far. -/
theorem prefix_of_quotedKey? (h : quotedKey? quote acc cs = some (key, rest)) :
    acc.reverse <+: key := by
  fun_induction quotedKey? quote acc cs with
  | case1 | case3 => cases h
  | case2 | case5 =>
    obtain ⟨rfl, -⟩ := Prod.mk.inj (Option.some.inj h)
    exact List.prefix_rfl
  | case4 _ _ _ _ _ ih | case6 _ _ _ _ _ _ ih =>
    have hlonger := ih h
    rw [List.reverse_cons] at hlonger
    exact (List.prefix_append _ _).trans hlonger

/-- The key in a bracket is what is read up to a quote. -/
theorem exists_quotedKey?_of_parseSegments
    (h : parseSegments ('[' :: '\'' :: cs) = .ok (.key name :: segments)) :
    ∃ rest, quotedKey? '\'' [] cs = some (name.toList, rest) := by
  rw [parseSegments, if_pos (.inl rfl)] at h
  split at h
  · cases h
  · rename_i key rest hkey
    obtain ⟨segments', -, hok⟩ := Except.bind_eq_ok.mp h
    obtain rfl := Segment.key.inj (List.cons.inj (Except.ok.inj hok)).1
    exact ⟨_, by rw [String.toList_ofList, hkey]⟩
  · cases h

/-- A key between quotes that ends in a backslash is not read as such. -/
theorem parseSegments_ne_of_backslash (hlast : name.toList.getLast? = some '\\') :
    parseSegments ('[' :: '\'' :: (name.toList.flatMap escapeQuote ++ '\'' :: rest)) ≠
      .ok (.key name :: segments) := by
  intro h
  obtain ⟨init, hinit⟩ := List.getLast?_eq_some_iff.mp hlast
  obtain ⟨rest', hkey⟩ := exists_quotedKey?_of_parseSegments h
  have htext : name.toList.flatMap escapeQuote ++ '\'' :: rest =
      init.flatMap escapeQuote ++ '\\' :: '\'' :: rest := by
    simp [hinit, escapeQuote]
  -- the backslash and the closing quote are read as a quote of the key
  have hread : quotedKey? '\'' ('\'' :: (init.reverse ++ [])) rest =
      some (name.toList, rest') := by
    rw [htext, quotedKey?_escape_cons [] _ (by simp), quotedKey?, if_pos ⟨rfl, rfl⟩] at hkey
    exact hkey
  have hprefix : init ++ ['\''] <+: init ++ ['\\'] := by
    have hprefix := prefix_of_quotedKey? hread
    rwa [List.reverse_cons, List.append_nil, List.reverse_reverse, hinit] at hprefix
  obtain ⟨hquote, -⟩ := List.cons_prefix_cons.mp ((List.prefix_append_right_inj init).mp hprefix)
  exact absurd hquote (by decide)

/-- In a path that is read back, every key between quotes is closed. -/
theorem keysClose_of_parseChars (h : parseChars p.chars = .ok p) : KeysClose p.segments := by
  have hclose : ∀ before after, p.segments = before ++ after → KeysClose before := by
    intro before
    -- the keys before a segment are closed, and so are read as they are before it is its turn
    induction before using List.reverseRecOn with
    | nil => exact fun _ _ _ hname => absurd hname List.not_mem_nil
    | append_singleton before s ih =>
      intro after hsegments name hname hplain hlast
      have hbefore : KeysClose before := ih (s :: after) (by simpa using hsegments)
      rcases List.mem_append.mp hname with hname | hname
      · exact hbefore name hname hplain hlast
      obtain rfl := List.mem_singleton.mp hname
      have hchars : p.chars = ('$' :: (before.flatMap segmentChars ++ '[' :: '\'' ::
          (name.toList.flatMap escapeQuote ++ ['\'']))) ++ ']' :: after.flatMap segmentChars := by
        simp [chars, hsegments, segmentChars, hplain]
      have hstart : SegmentStart ('[' :: '\'' :: (name.toList.flatMap escapeQuote ++ '\'' :: ']' ::
          Text.trimEnd (after.flatMap segmentChars))) := by
        rintro c hc
        obtain rfl := Option.some.inj hc
        rfl
      have htrim : Text.trim p.chars = '$' :: (before.flatMap segmentChars ++ '[' :: '\'' ::
          (name.toList.flatMap escapeQuote ++ '\'' :: ']' ::
            Text.trimEnd (after.flatMap segmentChars))) := by
        rw [hchars, List.cons_append, Text.trim_cons (by decide),
          Text.trimEnd_append_cons _ (by decide)]
        simp
      rw [parseChars, htrim] at h
      obtain ⟨segments, hread, rfl⟩ := Except.map_eq_ok.mp h
      rw [parseSegments_append hbefore hstart] at hread
      obtain ⟨segments', hread, hall⟩ := Except.map_eq_ok.mp hread
      obtain rfl : segments' = .key name :: after := by
        refine List.append_cancel_left (hall.trans ?_)
        simpa using hsegments
      exact parseSegments_ne_of_backslash hlast hread
  exact hclose p.segments [] (List.append_nil _).symm

/-- **Which paths are read back.** A path, however it was made, is read back from its text if and
only if no key that is written between quotes ends in a backslash, and its last segment is not a key
that is written after a point and ends in a blank. -/
theorem parse_text_iff_keysClose_and_firm (p : Path) :
    parse p.text = .ok p ↔ KeysClose p.segments ∧ p.EndsFirmly := by
  have hchars : parse p.text = .ok p ↔ parseChars p.chars = .ok p := parse_ofList_eq_ok
  rw [hchars]
  constructor
  · intro h
    have hclose : KeysClose p.segments := keysClose_of_parseChars h
    exact ⟨hclose, endsFirmly_of_parseChars hclose h⟩
  · rintro ⟨hclose, hfirm⟩
    exact (parseChars_chars_iff hclose).mpr hfirm

/-! ### Where keys come from -/

/-- The characters of a key between quotes come from the text. -/
theorem mem_of_quotedKey? (h : quotedKey? quote acc cs = some (key, rest)) :
    (∀ c ∈ key, c ∈ acc ∨ c ∈ cs) ∧ rest <:+ cs := by
  fun_induction quotedKey? quote acc cs with
  | case1 | case3 => cases h
  | case2 | case5 =>
    obtain ⟨rfl, rfl⟩ := Prod.mk.inj (Option.some.inj h)
    exact ⟨fun c hc => .inl (List.mem_reverse.mp hc), List.suffix_cons _ _⟩
  | case4 acc c d rest hquote ih =>
    obtain ⟨hkey, hrest⟩ := ih h
    refine ⟨fun e he => ?_, (hrest.trans (List.suffix_cons d rest)).trans (List.suffix_cons _ _)⟩
    rcases hkey e he with hacc | he
    · rcases List.mem_cons.mp hacc with rfl | hacc
      · exact .inr (by simp [hquote.2])
      · exact .inl hacc
    · exact .inr (List.mem_cons_of_mem _ (List.mem_cons_of_mem _ he))
  | case6 acc c d rest _ _ ih =>
    obtain ⟨hkey, hrest⟩ := ih h
    refine ⟨fun e he => ?_, hrest.trans (List.suffix_cons c _)⟩
    rcases hkey e he with hacc | he
    · rcases List.mem_cons.mp hacc with rfl | hacc
      · exact .inr List.mem_cons_self
      · exact .inl hacc
    · exact .inr (List.mem_cons_of_mem _ he)

/-- The characters of the keys of a path come from the text that it is read from. -/
theorem mem_of_parseSegments (h : parseSegments cs = .ok segments) (hname : .key name ∈ segments)
    (hc : c ∈ name.toList) : c ∈ cs := by
  fun_induction parseSegments cs generalizing segments with
  | case1 =>
    obtain rfl := Except.ok.inj h
    cases hname
  | case3 rest =>
    rename_i ih
    obtain ⟨segments', hread, hok⟩ := Except.bind_eq_ok.mp h
    obtain rfl := Except.ok.inj hok
    rcases List.mem_cons.mp hname with heq | hname
    · obtain rfl := Segment.key.inj heq
      rw [String.toList_ofList] at hc
      exact List.mem_cons_of_mem _ ((List.takeWhile_prefix _).subset hc)
    · exact List.mem_cons_of_mem _ ((List.dropWhile_suffix _).subset (ih hread hname))
  | case5 quote rest _ key rest' hkey ih =>
    obtain ⟨segments', hread, hok⟩ := Except.bind_eq_ok.mp h
    obtain rfl := Except.ok.inj hok
    obtain ⟨hfrom, hrest⟩ := mem_of_quotedKey? hkey
    have hmem : c ∈ rest := by
      rcases List.mem_cons.mp hname with heq | hname
      · obtain rfl := Segment.key.inj heq
        rw [String.toList_ofList] at hc
        exact (hfrom c hc).resolve_left List.not_mem_nil
      · exact hrest.subset (List.mem_cons_of_mem _ (ih hread hname))
    exact List.mem_cons_of_mem _ (List.mem_cons_of_mem _ hmem)
  | case9 d rest _ head rest' hdrop i _ ih =>
    obtain ⟨segments', hread, hok⟩ := Except.bind_eq_ok.mp h
    obtain rfl := Except.ok.inj hok
    have hname : .key name ∈ segments' := by simpa using hname
    have hsuffix : head :: rest' <:+ d :: rest := hdrop ▸ List.dropWhile_suffix _
    exact List.mem_cons_of_mem _ (hsuffix.subset (List.mem_cons_of_mem _ (ih hread hname)))
  | case2 | case4 | case6 | case7 | case8 | case10 | case11 => cases h

theorem mem_of_parseChars (h : parseChars cs = .ok p) (hname : .key name ∈ p.segments)
    (hc : c ∈ name.toList) : c ∈ cs := by
  unfold parseChars at h
  split at h
  · rename_i rest htrim
    obtain ⟨segments, hread, rfl⟩ := Except.map_eq_ok.mp h
    have hmem : c ∈ rest := mem_of_parseSegments hread hname hc
    exact Text.trim_subset (htrim ▸ List.mem_cons_of_mem _ hmem)
  · cases h

end Path

end Conveyor
