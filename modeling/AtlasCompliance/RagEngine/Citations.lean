import AtlasCompliance.Lib.Delimited
import AtlasCompliance.RagEngine.Guardrail

/-! The citations of an answer: its markers, each taken once in the order in which they first occur,
and the sources they stand for. -/
namespace AtlasCompliance.RagEngine
open Java Regex

/-- Each member that stays is one whose first place is before the first place of every later one. -/
theorem pairwise_eraseDups {β : Type} [BEq β] [LawfulBEq β] (xs : List β) :
    xs.eraseDups.Pairwise fun a b => a ≠ b ∧ ∃ l r, xs = l ++ a::r ∧ b ∉ l := by
  induction hn : xs.length using Nat.strongRec generalizing xs with
  | ind n ih =>
    cases xs with
    | nil => exact .nil
    | cons x xs =>
      have hshort : (xs.filter fun b => !b == x).length < n := by
        rw [← hn,List.length_cons]
        exact Nat.lt_succ_of_le (List.length_filter_le _ _)
      rw [List.eraseDups_cons]
      refine List.Pairwise.cons ?_ ((ih _ hshort _ rfl).imp_of_mem ?_)
      · intro b hb
        have hbx : b ≠ x := by simpa using (List.mem_filter.mp (List.mem_eraseDups.mp hb)).2
        exact ⟨hbx.symm,[],xs,rfl,List.not_mem_nil⟩
      · rintro a b - hb ⟨hab,l,r,hlr,hbl⟩
        have hbx : b ≠ x := by simpa using (List.mem_filter.mp (List.mem_eraseDups.mp hb)).2
        obtain ⟨l',r',rfl,hl,hr⟩ := List.filter_eq_append_iff.mp hlr
        obtain ⟨u,v,rfl,hu,-,-⟩ := List.filter_eq_cons_iff.mp hr
        refine ⟨hab,x::(l' ++ u),v,by simp,?_⟩
        intro hmem
        obtain rfl | hmem := List.mem_cons.mp hmem
        · exact hbx rfl
        · obtain hmem | hmem := List.mem_append.mp hmem
          · exact hbl (hl ▸ List.mem_filter.mpr ⟨hmem,by simpa using hbx⟩)
          · exact hu b hmem (by simpa using hbx)

/-- `\[(\d{1,3})]`. -/
def MARKER : Pattern Char :=
  .seq (.sat fun c => c == '[') (.seq (.group 1 (.between 1 2 (.sat isDigit)))
    (.sat fun c => c == ']'))

/-- `Integer.parseInt` of digits. -/
def parseInt (digits : List Char) : ℕ :=
  digits.foldl (fun n c => 10*n + (c.toNat - 48)) 0

/-- The `[n]` markers of an answer, in order. -/
def markers (answer : List Char) : List ℕ := (findall MARKER 1 answer).map parseInt

/-- One citation: the source's provenance under the marker's number. -/
structure Citation (D : Type) where
  marker : ℕ
  chunkId : UUID
  documentId : UUID
  docId : Option String
  title : Option String
  sourceUri : Option String
  clearance : String
  score : D
  snippet : List UInt16

def SNIPPET_LEN : ℕ := 240

/-- The beginning of a content on one line, in UTF-16 units. -/
def snippet (content : String) : List UInt16 :=
  let text := Text.units (String.ofList (replaceAll WHITESPACE [' '] (stripText content.toList)))
  if text.length ≤ SNIPPET_LEN then text else text.take SNIPPET_LEN ++ Text.units "…"

variable {D : Type}

def citation (marker : ℕ) (chunk : RetrievedChunk D) : Citation D :=
  ⟨marker,chunk.id,chunk.documentId,chunk.docId,chunk.title,chunk.sourceUri,chunk.clearance,
    chunk.score,snippet chunk.content⟩

/-- The citation of one marker: none if it is out of range or its source above the caller. -/
def cite (sources : List (RetrievedChunk D)) (caller : Clearance) (marker : ℕ) :
    Option (Citation D) :=
  if marker = 0 then none
  else match sources[marker-1]? with
    | none => none
    | some chunk => if isVisible caller chunk.clearance then some (citation marker chunk) else none

/-- `extract`. -/
def extract (answer : Option String) (sources : List (RetrievedChunk D)) (caller : Clearance) :
    List (Citation D) :=
  (markers (answer.getD "").toList).eraseDups.filterMap (cite sources caller)

/-- A marker with number `n` begins at place `p` of the answer. -/
def MarkerAt (answer : List Char) (p n : ℕ) : Prop :=
  ∃ ds rest, answer.drop p = '['::(ds ++ ']'::rest) ∧ 1 ≤ ds.length ∧ ds.length ≤ 3 ∧
    (∀ c ∈ ds, isDigit c = true) ∧ parseInt ds = n

/-- One to three digits. -/
def IsNumber (ds : List Char) : Prop :=
  1 ≤ ds.length ∧ ds.length ≤ 3 ∧ ∀ c ∈ ds, isDigit c = true

theorem mem_marker_ends {c d : Cursor Char} : d ∈ MARKER.ends c ↔
    ∃ ds rest, c.after = '['::(ds ++ ']'::rest) ∧ IsNumber ds ∧
      d = ⟨']'::(ds.reverse ++ '['::c.before),rest,(1,ds)::c.groups⟩ := by
  have hplain : (Pattern.between 1 2 (.sat isDigit)).Plain :=
    plain_between (r := .sat isDigit) trivial 1 2
  obtain ⟨before,after,groups⟩ := c
  constructor
  · intro h
    obtain ⟨e,he,h⟩ := List.mem_flatMap.mp h
    obtain ⟨e',he',h⟩ := List.mem_flatMap.mp h
    obtain ⟨e'',he'',rfl⟩ := List.mem_map.mp he'
    obtain ⟨_,⟨a,rfl,ha⟩,hafter,hbefore,hgroups⟩ := (mem_ends (r := .sat _) trivial).mp he
    obtain ⟨ds,hds,hafter',hbefore',hgroups'⟩ := (mem_ends hplain).mp he''
    obtain ⟨_,⟨b,rfl,hb⟩,hafter'',hbefore'',hgroups''⟩ := (mem_ends (r := .sat _) trivial).mp h
    obtain rfl : a = '[' := by simpa using ha
    obtain rfl : b = ']' := by simpa using hb
    refine ⟨ds,d.after,?_,mem_language_between.mp hds,?_⟩
    · rw [hafter,hafter',hafter'']
      rfl
    · cases d
      simp_all
  · rintro ⟨ds,rest,hafter,hds,rfl⟩
    dsimp only at hafter
    subst hafter
    refine List.mem_flatMap.mpr ⟨⟨'['::before,ds ++ ']'::rest,groups⟩,?_,
      List.mem_flatMap.mpr ⟨⟨ds.reverse ++ '['::before,']'::rest,(1,ds)::groups⟩,
        List.mem_map.mpr ⟨⟨ds.reverse ++ '['::before,']'::rest,groups⟩,?_,?_⟩,?_⟩⟩
    · simp [Pattern.ends]
    · exact (mem_ends hplain).mpr ⟨ds,mem_language_between.mpr hds,rfl,rfl,rfl⟩
    · simp
    · simp [Pattern.ends]

theorem marker_proper : MARKER.Proper := by
  intro c d h
  obtain ⟨ds,rest,hafter,-,rfl⟩ := mem_marker_ends.mp h
  simp [hafter]
  omega

/-- The digits of the marker at the beginning of a text. -/
def markerAt (text : List Char) : Option (List Char) :=
  (MARKER.ends ⟨[],text,[]⟩).head?.bind fun d => d.groups.lookup 1

theorem not_mem_digits {ds : List Char} (h : ∀ c ∈ ds, isDigit c = true) : ']' ∉ ds := fun hmem =>
  absurd (h _ hmem) (by decide)

theorem marker_head_eq_some {before text ds : List Char} :
    ((MARKER.ends ⟨before,text,[]⟩).head?.bind fun d => d.groups.lookup 1) = some ds ↔
      ∃ rest, text = '['::(ds ++ ']'::rest) ∧ IsNumber ds := by
  constructor
  · intro h
    obtain ⟨d,hd,hlookup⟩ := Option.bind_eq_some_iff.mp h
    obtain ⟨ds',rest,hafter,hds,rfl⟩ := mem_marker_ends.mp (List.mem_of_mem_head? hd)
    obtain rfl : ds' = ds := by simpa using hlookup
    exact ⟨rest,hafter,hds⟩
  · rintro ⟨rest,rfl,hds⟩
    have hmem := mem_marker_ends (c := ⟨before,'['::(ds ++ ']'::rest),[]⟩).mpr
      ⟨ds,rest,rfl,hds,rfl⟩
    obtain ⟨d,ends,hends⟩ := List.exists_cons_of_ne_nil (List.ne_nil_of_mem hmem)
    have hd : d ∈ MARKER.ends ⟨before,'['::(ds ++ ']'::rest),[]⟩ := by simp [hends]
    obtain ⟨ds',rest',hafter,hds',rfl⟩ := mem_marker_ends.mp hd
    have hsame := (List.cons.inj hafter).2
    obtain ⟨rfl,-⟩ := Delimited.append_cons_inj ']' (not_mem_digits hds.2.2)
      (not_mem_digits hds'.2.2) hsame
    simp [hends]

theorem markerAt_eq_some {text ds : List Char} :
    markerAt text = some ds ↔ ∃ rest, text = '['::(ds ++ ']'::rest) ∧ IsNumber ds :=
  marker_head_eq_some

/-- The scan finds the marker of every place that has one. -/
theorem markers_eq (answer : List Char) :
    markers answer = (answer.tails.filterMap markerAt).map parseInt := by
  refine congrArg (List.map parseInt) ((scanned_tokens marker_proper answer).findall ?_ ?_ rfl)
  · intro before after
    exact Option.ext fun ds => marker_head_eq_some.trans marker_head_eq_some.symm
  · -- no marker begins inside another: only its first letter is a bracket that opens
    intro before v w rest d hd hrest hv hw
    obtain ⟨ds,rest',hafter,hds,rfl⟩ := mem_marker_ends.mp hd
    dsimp only at hafter hrest
    subst hrest
    obtain ⟨a,v,rfl⟩ := List.exists_cons_of_ne_nil hv
    obtain ⟨b,w,rfl⟩ := List.exists_cons_of_ne_nil hw
    have hvw : v ++ b::w = ds ++ [']'] := by
      refine (List.append_left_inj rest').mp ?_
      simpa using (List.cons.inj hafter).2
    have hb : b ∈ ds ++ [']'] := hvw ▸ by simp
    refine Option.eq_none_iff_forall_ne_some.mpr fun ds' h => ?_
    obtain ⟨_,h,-⟩ := markerAt_eq_some.mp h
    obtain rfl : b = '[' := (List.cons.inj h).1
    obtain hb | hb := List.mem_append.mp hb
    · exact absurd (hds.2.2 _ hb) (by decide)
    · exact absurd hb (by decide)

theorem markers_eq_filterMap (answer : List Char) :
    markers answer = answer.tails.filterMap fun t => (markerAt t).map parseInt := by
  rw [markers_eq,List.map_filterMap]

theorem markerAt_iff {answer : List Char} {p n : ℕ} :
    MarkerAt answer p n ↔ (markerAt (answer.drop p)).map parseInt = some n := by
  rw [Option.map_eq_some_iff]
  constructor
  · rintro ⟨ds,rest,htext,hpos,hlen,hdigits,hn⟩
    exact ⟨ds,markerAt_eq_some.mpr ⟨rest,htext,hpos,hlen,hdigits⟩,hn⟩
  · rintro ⟨ds,hds,hn⟩
    obtain ⟨rest,htext,hpos,hlen,hdigits⟩ := markerAt_eq_some.mp hds
    exact ⟨ds,rest,htext,hpos,hlen,hdigits,hn⟩

theorem mem_markers {answer : List Char} {n : ℕ} :
    n ∈ markers answer ↔ ∃ p, MarkerAt answer p n := by
  simp only [markers_eq_filterMap,List.mem_filterMap,List.mem_tails,markerAt_iff]
  constructor
  · rintro ⟨t,ht,hn⟩
    exact ⟨answer.length - t.length,List.suffix_iff_eq_drop.mp ht ▸ hn⟩
  · rintro ⟨p,hn⟩
    exact ⟨answer.drop p,List.drop_suffix p answer,hn⟩

/-- Some marker with number `n` stands before every marker with number `m`. -/
def FirstBefore (answer : List Char) (n m : ℕ) : Prop :=
  ∃ p, MarkerAt answer p n ∧ ∀ q, MarkerAt answer q m → p < q

theorem firstBefore_of_markers {answer : List Char} {l r : List ℕ} {n m : ℕ} (hnm : n ≠ m)
    (h : markers answer = l ++ n::r) (hm : m ∉ l) : FirstBefore answer n m := by
  rw [markers_eq_filterMap] at h
  obtain ⟨tails,rest,htails,rfl,hrest⟩ := List.filterMap_eq_append_iff.mp h
  obtain ⟨skipped,t,later,rfl,hskipped,hn,-⟩ := List.filterMap_eq_cons_iff.mp hrest
  have hplace : ∀ p u, answer.tails[p]? = some u → answer.drop p = u := by
    intro p u hu
    obtain ⟨hp,rfl⟩ := List.getElem?_eq_some_iff.mp hu
    exact (List.getElem_tails ..).symm
  refine ⟨(tails ++ skipped).length,?_,?_⟩
  · rw [markerAt_iff,hplace _ t (by simp [htails])]
    exact hn
  · intro q hq
    rw [markerAt_iff] at hq
    by_contra hle
    obtain hlt | heq := Nat.lt_or_eq_of_le (Nat.le_of_not_lt hle)
    · have hu : answer.tails[q]? = some (tails ++ skipped)[q] := by
        rw [htails,← List.append_assoc,List.getElem?_append_left hlt,List.getElem?_eq_getElem hlt]
      rw [hplace q _ hu] at hq
      obtain hmem | hmem := List.mem_append.mp (List.getElem_mem hlt)
      · exact hm (List.mem_filterMap.mpr ⟨_,hmem,hq⟩)
      · rw [hskipped _ hmem] at hq
        cases hq
    · rw [heq,hplace _ t (by simp [htails]),hn] at hq
      exact hnm (Option.some.inj hq)

theorem cite_eq_some {sources : List (RetrievedChunk D)} {caller : Clearance} {n : ℕ}
    {c : Citation D} : cite sources caller n = some c ↔
      ∃ chunk, n ≠ 0 ∧ sources[n-1]? = some chunk ∧ isVisible caller chunk.clearance = true ∧
        c = citation n chunk := by
  unfold cite
  split_ifs with hn
  · simp [hn]
  · cases hs : sources[n-1]? with
    | none => simp
    | some chunk =>
      constructor
      · intro h
        obtain ⟨hv,h⟩ := Option.ite_none_right_eq_some.mp h
        exact ⟨chunk,hn,rfl,hv,(Option.some.inj h).symm⟩
      · rintro ⟨_,-,h,hv,rfl⟩
        obtain rfl := Option.some.inj h
        exact if_pos hv

theorem mem_extract {answer : Option String} {sources : List (RetrievedChunk D)}
    {caller : Clearance} {c : Citation D} : c ∈ extract answer sources caller ↔
      ∃ p n chunk, MarkerAt (answer.getD "").toList p n ∧ n ≠ 0 ∧ sources[n-1]? = some chunk ∧
        isVisible caller chunk.clearance = true ∧ c = citation n chunk := by
  simp only [extract,List.mem_filterMap,List.mem_eraseDups,mem_markers,cite_eq_some]
  constructor
  · rintro ⟨n,⟨p,hp⟩,chunk,hcite⟩
    exact ⟨p,n,chunk,hp,hcite⟩
  · rintro ⟨p,n,chunk,hp,hcite⟩
    exact ⟨n,⟨p,hp⟩,chunk,hcite⟩

/-- The citations come in the order in which their markers first occur. -/
theorem extract_pairwise (answer : Option String) (sources : List (RetrievedChunk D))
    (caller : Clearance) : (extract answer sources caller).Pairwise fun c d =>
      c.marker ≠ d.marker ∧ FirstBefore (answer.getD "").toList c.marker d.marker := by
  refine (pairwise_eraseDups (markers (answer.getD "").toList)).filterMap _ ?_
  rintro n m ⟨hnm,l,r,hmarkers,hm⟩ c hc d hd
  obtain ⟨_,-,-,-,rfl⟩ := cite_eq_some.mp hc
  obtain ⟨_,-,-,-,rfl⟩ := cite_eq_some.mp hd
  exact ⟨hnm,firstBefore_of_markers hnm hmarkers hm⟩

end AtlasCompliance.RagEngine
