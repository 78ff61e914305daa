import Conveyor.Command.Session
import Conveyor.Proofs.Store.Noninterference
import Conveyor.Proofs.Text.Basic

/-!
# What the grants of a run allow

The values of the grant option are folded into a policy. A value `table:t` lets items be put into a
table, `read:c` lets a container be read, and a plain name lets it be read and written. What a list
of values allows is what its values give, one by one (`allows_foldl_grantOf`): a later value takes
nothing away, and nothing depends on the order.

A plain name is one without either of the two beginnings, so it may contain colons; and a value with
a beginning is never the name of a container, so the container `read:c` can be read with the value
`read:read:c` and cannot be written to at all.
-/

namespace Conveyor.Command

variable {p : AccessPolicy} {o : Options} {g : Grant} {text start : String}

/-! ### The values of the option -/

/-- Whether the value of a grant option is the plain name of a container. -/
def IsPlain (text : String) : Prop :=
  ¬"table:".toList <+: text.toList ∧ ¬"read:".toList <+: text.toList
  deriving Decidable

/-- Whether the value of a grant option gives a grant. -/
def Gives (text : String) : Grant → Prop
  | .read container => text = "read:" ++ container ∨ IsPlain text ∧ text = container
  | .write container => IsPlain text ∧ text = container
  | .table name => text = "table:" ++ name

theorem toList_prefix_iff : start.toList <+: text.toList ↔ ∃ rest, text = start ++ rest := by
  constructor
  · rintro ⟨cs, hcs⟩
    refine ⟨.ofList cs, ?_⟩
    rw [← String.toList_inj, String.toList_append, String.toList_ofList, hcs]
  · rintro ⟨rest, rfl⟩
    rw [String.toList_append]
    exact List.prefix_append _ _

theorem map_afterStart?_eq_some_iff {rest : String} :
    (Text.afterStart? start.toList text.toList).map String.ofList = some rest ↔
      text = start ++ rest := by
  constructor
  · intro h
    obtain ⟨cs, hcs, rfl⟩ := Option.map_eq_some_iff.mp h
    rw [← String.toList_inj, String.toList_append, String.toList_ofList]
    exact Text.eq_append_of_afterStart? hcs
  · rintro rfl
    rw [String.toList_append, Text.afterStart?_append, Option.map_some, String.ofList_toList]

theorem not_prefix_of_map_afterStart?
    (h : (Text.afterStart? start.toList text.toList).map String.ofList = none) :
    ¬start.toList <+: text.toList := by
  intro hprefix
  obtain ⟨rest, hrest⟩ := toList_prefix_iff.mp hprefix
  rw [map_afterStart?_eq_some_iff.mpr hrest] at h
  cases h

/-- A value with one of the two beginnings is read as it says, and every other value is plain. -/
theorem grantOf_cases (p : AccessPolicy) (text : String) :
    (∃ table, text = "table:" ++ table ∧ grantOf p text = p.grant (.table table)) ∨
      (∃ container, text = "read:" ++ container ∧ grantOf p text = p.grant (.read container)) ∨
      IsPlain text ∧ grantOf p text = p.grantReadWrite text := by
  unfold grantOf
  dsimp only
  split
  · rename_i table htable
    exact .inl ⟨table, map_afterStart?_eq_some_iff.mp htable, rfl⟩
  · rename_i container _ hread
    exact .inr (.inl ⟨container, map_afterStart?_eq_some_iff.mp hread, rfl⟩)
  · rename_i htable hread
    have hplain : IsPlain text :=
      ⟨not_prefix_of_map_afterStart? htable, not_prefix_of_map_afterStart? hread⟩
    exact .inr (.inr ⟨hplain, rfl⟩)

theorem not_isPlain_table (name : String) : ¬IsPlain ("table:" ++ name) :=
  fun h => h.1 (toList_prefix_iff.mpr ⟨name, rfl⟩)

theorem not_isPlain_read (name : String) : ¬IsPlain ("read:" ++ name) :=
  fun h => h.2 (toList_prefix_iff.mpr ⟨name, rfl⟩)

theorem table_append_ne_read_append (s t : String) : "table:" ++ s ≠ "read:" ++ t := by
  intro h
  have hlist := congrArg String.toList h
  simp at hlist

theorem gives_table_iff {table : String} : Gives ("table:" ++ table) g ↔ g = .table table := by
  cases g with
  | read c => simp [Gives, not_isPlain_table, table_append_ne_read_append]
  | write c => simp [Gives, not_isPlain_table]
  | table t =>
    rw [Gives, String.append_right_inj, Grant.table.injEq]
    exact eq_comm

theorem gives_read_iff {container : String} :
    Gives ("read:" ++ container) g ↔ g = .read container := by
  cases g with
  | read c =>
    rw [Gives, or_iff_left fun h => not_isPlain_read container h.1, String.append_right_inj,
      Grant.read.injEq]
    exact eq_comm
  | write c => simp [Gives, not_isPlain_read]
  | table t => simp [Gives, (table_append_ne_read_append t container).symm]

theorem gives_iff_of_isPlain (h : IsPlain text) :
    Gives text g ↔ g = .read text ∨ g = .write text := by
  cases g with
  | read c =>
    have hread : text ≠ "read:" ++ c := fun heq => not_isPlain_read c (heq ▸ h)
    simp [Gives, h, hread, eq_comm]
  | write c => simp [Gives, h, eq_comm]
  | table t =>
    have htable : text ≠ "table:" ++ t := fun heq => not_isPlain_table t (heq ▸ h)
    simp [Gives, htable]

/-! ### Lists of values -/

/-- One more value allows what it gives, and takes nothing away. -/
theorem allows_grantOf :
    (grantOf p text).allows g = true ↔ Gives text g ∨ p.allows g = true := by
  rcases grantOf_cases p text with ⟨table, rfl, h⟩ | ⟨container, rfl, h⟩ | ⟨hplain, h⟩
  · rw [h, AccessPolicy.allows_grant, gives_table_iff]
  · rw [h, AccessPolicy.allows_grant, gives_read_iff]
  · rw [h, AccessPolicy.grantReadWrite, AccessPolicy.allows_grant, AccessPolicy.allows_grant,
      gives_iff_of_isPlain hplain, or_assoc]
    exact or_left_comm

theorem allows_foldl_grantOf (texts : List String) (p : AccessPolicy) :
    (texts.foldl grantOf p).allows g = true ↔
      (∃ text ∈ texts, Gives text g) ∨ p.allows g = true := by
  induction texts generalizing p with
  | nil => simp
  | cons text texts ih =>
    rw [List.foldl_cons, ih, allows_grantOf, List.exists_mem_cons_iff]
    exact or_left_comm.trans or_assoc.symm

theorem Options.policy_allows_iff :
    o.policy.allows g = true ↔ o.grants = [] ∨ ∃ text ∈ o.grants, Gives text g := by
  unfold Options.policy
  split
  · rename_i hempty
    have hall : AccessPolicy.allowAll.allows g = true := by cases g <;> rfl
    exact iff_of_true hall (.inl (List.isEmpty_iff.mp hempty))
  · rename_i hempty
    have hne : o.grants ≠ [] := fun h => hempty (List.isEmpty_iff.mpr h)
    rw [allows_foldl_grantOf, AccessPolicy.denyAll_allows, or_iff_left Bool.false_ne_true,
      or_iff_right hne]

theorem Options.policy_allows_read_iff {container : String} :
    o.policy.allows (.read container) = true ↔
      o.grants = [] ∨ "read:" ++ container ∈ o.grants ∨
        IsPlain container ∧ container ∈ o.grants := by
  rw [policy_allows_iff]
  refine or_congr_right ⟨?_, ?_⟩
  · rintro ⟨text, hmem, rfl | ⟨hplain, rfl⟩⟩
    · exact .inl hmem
    · exact .inr ⟨hplain, hmem⟩
  · rintro (hmem | ⟨hplain, hmem⟩)
    · exact ⟨_, hmem, .inl rfl⟩
    · exact ⟨_, hmem, .inr ⟨hplain, rfl⟩⟩

theorem Options.policy_allows_write_iff {container : String} :
    o.policy.allows (.write container) = true ↔
      o.grants = [] ∨ IsPlain container ∧ container ∈ o.grants := by
  rw [policy_allows_iff]
  refine or_congr_right ⟨?_, ?_⟩
  · rintro ⟨text, hmem, hplain, rfl⟩
    exact ⟨hplain, hmem⟩
  · rintro ⟨hplain, hmem⟩
    exact ⟨_, hmem, hplain, rfl⟩

theorem Options.policy_allows_table_iff {name : String} :
    o.policy.allows (.table name) = true ↔ o.grants = [] ∨ "table:" ++ name ∈ o.grants := by
  rw [policy_allows_iff]
  refine or_congr_right ⟨?_, fun hmem => ⟨_, hmem, rfl⟩⟩
  rintro ⟨text, hmem, rfl⟩
  exact hmem

/-! ### Checks -/

theorem check_eq_of_allows_iff {condition : Prop} [Decidable condition]
    (h : p.allows g = true ↔ condition) (operation resource : String) :
    p.check g operation resource =
      if condition then .ok () else .error (.accessDenied operation resource) :=
  if_congr h rfl rfl

theorem check_mono {q : AccessPolicy} (h : p.allows g = true → q.allows g = true)
    {operation resource : String} (hcheck : p.check g operation resource = .ok ()) :
    q.check g operation resource = .ok () :=
  if_pos (h (AccessPolicy.allows_of_check hcheck))

/-- Grants mean what they say. Without a grant everything is allowed. With grants, a container may
be read with its name or its `read:` grant, written with its name only, and a table filled with its
`table:` grant; everything else is denied by name. Lists with the same values allow the same, and
what a list of grants allows is allowed by every longer one. -/
theorem policy_checks (o : Options) (operation name : String) :
    o.policy.checkRead operation name =
        (if o.grants = [] ∨ "read:" ++ name ∈ o.grants ∨ IsPlain name ∧ name ∈ o.grants then .ok ()
        else .error (.accessDenied operation name)) ∧
      o.policy.checkWrite operation name =
        (if o.grants = [] ∨ IsPlain name ∧ name ∈ o.grants then .ok ()
        else .error (.accessDenied operation name)) ∧
      o.policy.checkTable operation name =
        (if o.grants = [] ∨ "table:" ++ name ∈ o.grants then .ok ()
        else .error (.accessDenied operation name)) ∧
      ∀ (o' : Options) (g : Grant),
        ((∀ text, text ∈ o'.grants ↔ text ∈ o.grants) →
          o'.policy.check g operation name = o.policy.check g operation name) ∧
        (o.grants ≠ [] → o.grants ⊆ o'.grants → o.policy.check g operation name = .ok () →
          o'.policy.check g operation name = .ok ()) := by
  refine ⟨check_eq_of_allows_iff Options.policy_allows_read_iff operation name,
    check_eq_of_allows_iff Options.policy_allows_write_iff operation name,
    check_eq_of_allows_iff Options.policy_allows_table_iff operation name, fun o' g => ⟨?_, ?_⟩⟩
  · intro hsame
    have hnil : o'.grants = [] ↔ o.grants = [] := by
      simp only [List.eq_nil_iff_forall_not_mem, hsame]
    have hallows : o'.policy.allows g = true ↔ o.policy.allows g = true := by
      simp only [Options.policy_allows_iff, hnil, hsame]
    exact if_congr hallows rfl rfl
  · intro hne hsubset
    refine check_mono fun hallows => ?_
    obtain ⟨text, hmem, hgives⟩ := (Options.policy_allows_iff.mp hallows).resolve_left hne
    exact Options.policy_allows_iff.mpr (.inr ⟨text, hsubset hmem, hgives⟩)

/-- A container that may be written to still may after a later grant to read it. -/
theorem policy_checks_read_after_write :
    let o : Options := { grants := ["inbox", "table:t"] }
    let reordered : Options := { grants := ["table:t", "inbox", "table:t"] }
    let longer : Options := { grants := ["inbox", "table:t", "read:inbox"] }
    (∀ text, text ∈ reordered.grants ↔ text ∈ o.grants) ∧
      reordered.policy.check (.write "inbox") "copy" "inbox" =
        o.policy.check (.write "inbox") "copy" "inbox" ∧
      o.grants ≠ [] ∧ o.grants ⊆ longer.grants ∧
      o.policy.check (.write "inbox") "copy" "inbox" = .ok () ∧
      longer.policy.check (.write "inbox") "copy" "inbox" = .ok () := by
  intro o reordered longer
  obtain ⟨-, hwrite, -, hlists⟩ := policy_checks o "copy" "inbox"
  have hsame : ∀ text, text ∈ reordered.grants ↔ text ∈ o.grants := by
    intro text
    simp only [o, reordered, List.mem_cons, List.not_mem_nil, or_false]
    tauto
  have hne : o.grants ≠ [] := by decide
  have hsubset : o.grants ⊆ longer.grants := by decide
  have hok : o.policy.check (.write "inbox") "copy" "inbox" = .ok () :=
    hwrite.trans (if_pos (by decide))
  exact ⟨hsame, (hlists reordered _).1 hsame, hne, hsubset, hok,
    (hlists longer _).2 hne hsubset hok⟩

end Conveyor.Command
