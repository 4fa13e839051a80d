import Tftp.Proofs.Endpoint
import Tftp.Transfer

namespace Tftp
namespace Log

/-- A line about a peer: it starts with the peer's tag, perhaps behind a label. -/
def Attributed (peer : Endpoint) (line : Bytes) : Prop :=
  ∃ label ∈ [[], ascii "Error: ", ascii "Warning: "], label ++ peer.tag <+: line

instance (peer : Endpoint) (line : Bytes) : Decidable (Attributed peer line) :=
  inferInstanceAs (Decidable (∃ label ∈ _, label ++ peer.tag <+: line))

def Output.About (peer : Endpoint) (o : Output) : Prop :=
  ∃ out err : List Bytes, o = ⟨out.flatMap (· ++ [10]), err.flatMap (· ++ [10])⟩ ∧
    ∀ line ∈ out ++ err, 10 ∉ line ∧ Attributed peer line

/-- An entry that is for debugging only, or one that is tagged with a peer, unless it is an `other`
one. If it is `clean`, it has no line break in it. -/
def Entry.Told (peer : Endpoint) (clean : Prop) (other : Entry → Prop) (e : Entry) : Prop :=
  e.level = .debug ∨ (peer.tag <+: e.text ∨ other e) ∧ (clean → 10 ∉ e.text)

def Tells (peer : Endpoint) (clean : Prop) (other : Entry → Prop) (es : List Entry) : Prop :=
  ∀ e ∈ es, e.Told peer clean other

variable {peer p q : Endpoint} {clean : Prop} {other : Entry → Prop} {level : Level}
  {text line : Bytes} {e : Entry} {es es' : List Entry}

theorem Tells.nil : Tells peer clean other [] := nofun

theorem Tells.cons (he : e.Told peer clean other) (h : Tells peer clean other es) :
    Tells peer clean other (e :: es) := List.forall_mem_cons.2 ⟨he, h⟩

theorem Tells.append (h : Tells peer clean other es) (h' : Tells peer clean other es') :
    Tells peer clean other (es ++ es') := List.forall_mem_append.2 ⟨h, h'⟩

theorem tag_clean (peer : Endpoint) : 10 ∉ peer.tag :=
  List.not_mem_cons_of_ne_of_not_mem (by decide)
    (List.not_mem_append (peer.not_mem_text rfl (by decide) (by decide)) (by decide))

theorem told_note (h : clean → 10 ∉ text) : (peer.note level text).Told peer clean other :=
  .inr ⟨.inl (List.prefix_append _ _), fun hc => List.not_mem_append (tag_clean peer) (h hc)⟩

theorem told_debug (peer : Endpoint) (clean : Prop) (other : Entry → Prop) (q : Endpoint)
    (text : Bytes) : (q.note .debug text).Told peer clean other :=
  .inl rfl

theorem tag_prefix_unique {a b : Bytes} (h : p.tag ++ a = q.tag ++ b) : p = q := by
  have hplain : ∀ e : Endpoint, ∀ x ∈ e.text, x != 93 := fun e x hx =>
    bne_iff_ne.2 (ne_of_mem_of_not_mem hx (e.not_mem_text rfl (by decide) (by decide)))
  have htext : ∀ (e : Endpoint) (c : Bytes), (e.tag ++ c).tail.takeWhile (· != 93) = e.text := by
    intro e c
    rw [Endpoint.tag, List.cons_append, List.cons_append, List.tail_cons, List.append_assoc,
      List.takeWhile_append_of_pos (hplain e), ascii]
    simp
  apply Endpoint.text_injective
  rw [← htext p a, h, htext q b]

theorem attributed_unique (hp : Attributed p line) (hq : Attributed q line) : p = q := by
  obtain ⟨a, ha, s, rfl⟩ := hp
  obtain ⟨b, hb, t, hline⟩ := hq
  have hlabel : ∀ a ∈ [[], ascii "Error: ", ascii "Warning: "],
      ∀ b ∈ [[], ascii "Error: ", ascii "Warning: "],
        (a ++ [91]).head? = (b ++ [91]).head? → a = b := by
    decide
  have hhead : ∀ (c : Bytes) (e : Endpoint) (u : Bytes),
      (c ++ e.tag ++ u).head? = (c ++ [91]).head? := by
    intro c e u
    cases c <;> rfl
  have hab : b = a := by
    apply hlabel b hb a ha
    rw [← hhead b q t, hline, hhead a p s]
  rw [hab, List.append_assoc, List.append_assoc] at hline
  exact (tag_prefix_unique (List.append_cancel_left hline)).symm

theorem Output.About.attributed {o : Output} (h : o.About peer)
    (hl : line ∈ Bytes.parts 10 o.out ++ Bytes.parts 10 o.err) :
    line = [] ∨ Attributed peer line := by
  obtain ⟨out, err, rfl, hlines⟩ := h
  obtain ⟨hout, herr⟩ := List.forall_mem_append.1 hlines
  rw [Bytes.parts_lines fun l h => (hout l h).1, Bytes.parts_lines fun l h => (herr l h).1] at hl
  rcases List.mem_append.1 hl with hl | hl
  · rcases List.mem_append.1 hl with hl | hl
    · exact .inr (hout line hl).2
    · exact .inl (List.mem_singleton.1 hl)
  · rcases List.mem_append.1 hl with hl | hl
    · exact .inr (herr line hl).2
    · exact .inl (List.mem_singleton.1 hl)

theorem render_info (es : List Entry) : render .info es =
    ⟨(es.filter (·.level = .info)).flatMap Entry.line,
      (es.filter fun e => e.level = .error ∨ e.level = .warn).flatMap Entry.line⟩ := by
  induction es with
  | nil => rfl
  | cons e es ih =>
    obtain ⟨level, text⟩ := e
    rw [render_cons, ih]
    cases level <;> rfl

theorem Tells.lines (h : Tells peer clean other es) : ∃ out err : List Bytes,
    render .info es = ⟨out.flatMap (· ++ [10]), err.flatMap (· ++ [10])⟩ ∧
    ∀ line ∈ out ++ err,
      (Attributed peer line ∨ ∃ e, other e ∧ line = e.level.label ++ e.text) ∧
        (clean → 10 ∉ line) := by
  refine ⟨(es.filter (·.level = .info)).map fun e => e.level.label ++ e.text,
    (es.filter fun e => e.level = .error ∨ e.level = .warn).map fun e => e.level.label ++ e.text,
    ?_, ?_⟩
  · rw [render_info, List.flatMap_map, List.flatMap_map]
    rfl
  · intro line hline
    rw [List.mem_append, List.mem_map, List.mem_map] at hline
    have hentry : ∃ e ∈ es, (e.level = .info ∨ e.level = .error ∨ e.level = .warn) ∧
        line = e.level.label ++ e.text := by
      rcases hline with ⟨e, he, rfl⟩ | ⟨e, he, rfl⟩
      · obtain ⟨he, hlevel⟩ := List.mem_filter.1 he
        exact ⟨e, he, .inl (of_decide_eq_true hlevel), rfl⟩
      · obtain ⟨he, hlevel⟩ := List.mem_filter.1 he
        exact ⟨e, he, .inr (of_decide_eq_true hlevel), rfl⟩
    obtain ⟨e, he, hlevel, rfl⟩ := hentry
    have hlabel : e.level.label ∈ [[], ascii "Error: ", ascii "Warning: "] ∧
        10 ∉ e.level.label := by
      rcases hlevel with hl | hl | hl <;> rw [hl] <;> decide
    rcases h e he with hdebug | ⟨htag, hclean⟩
    · rw [hdebug] at hlevel
      simp at hlevel
    · refine ⟨htag.imp (fun ht => ⟨_, hlabel.1, (List.prefix_append_right_inj _).2 ht⟩)
        fun ho => ⟨e, ho, rfl⟩, fun hc => List.not_mem_append hlabel.2 (hclean hc)⟩

end Log
end Tftp
