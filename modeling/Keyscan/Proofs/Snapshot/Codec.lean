import Keyscan.Snapshot.Record

namespace Keyscan.Snapshot

theorem RegisterBlock.decode_eq_ok {bytes : List Byte} {b : RegisterBlock} :
    decode bytes = .ok b ↔ b.encode <+: bytes := by
  constructor
  · intro h
    unfold decode at h
    split at h
    · next rest =>
      cases h
      exact ⟨rest, rfl⟩
    · cases h
  · rintro ⟨rest, rfl⟩
    exact decode_encode b rest

theorem encodeFlag_of_decodeFlag {field : Field} {b : Byte} {on : Bool}
    (h : decodeFlag field b = .ok on) : encodeFlag on = b := by
  rw [decodeFlag] at h
  split at h
  · next zero =>
    cases h
    exact zero.symm
  · split at h
    · next one =>
      cases h
      exact one.symm
    · cases h

theorem Version.not_current_lt {v : Version} :
    ¬current < v ↔ v.major < 1 ∨ v.major = 1 ∧ v.minor ≤ 1 := by
  simp only [lt_def, current, BitVec.lt_def, BitVec.le_def, ← BitVec.toNat_inj]
  omega

theorem Version.hasRegisters_iff {v : Version} : v.hasRegisters = true ↔ 1 ≤ v.minor :=
  decide_eq_true_iff

def Version.recordLength (v : Version) : Nat := if v.hasRegisters then 11 else 5

namespace Record

variable {r : Record} {data : List Byte}

/-- The version can be read, and the register block is there when the version has one. -/
structure WellFormed (r : Record) : Prop where
  version : ¬Version.current < r.version
  registers : r.registers.isSome = r.version.hasRegisters

theorem wellFormed_iff : r.WellFormed ↔
    (r.version.major < 1 ∨ r.version.major = 1 ∧ r.version.minor ≤ 1) ∧
      (r.registers.isSome = true ↔ 1 ≤ r.version.minor) := by
  rw [← Version.not_current_lt, ← Version.hasRegisters_iff, ← Bool.eq_iff_iff]
  exact ⟨fun h => ⟨h.version, h.registers⟩, fun h => ⟨h.1, h.2⟩⟩

theorem decodeRegisters_encode (h : r.registers.isSome = r.version.hasRegisters) (rest : List Byte) :
    decodeRegisters r.version ((r.registers.map RegisterBlock.encode).getD [] ++ rest) =
      .ok r.registers := by
  rw [decodeRegisters, ← h]
  cases r.registers with
  | none => rfl
  | some b => rfl

theorem decode_encode (h : r.WellFormed) (rest : List Byte) : decode (r.encode ++ rest) = .ok r := by
  simp only [encode, List.cons_append, List.nil_append, decode, if_neg h.version, decodeBody,
    decodeFlag_encodeFlag, decodeRegisters_encode h.registers]
  rfl

theorem encode_of_decodeRegisters {v : Version} {bytes : List Byte} {regs : Option RegisterBlock}
    (h : decodeRegisters v bytes = .ok regs) :
    regs.isSome = v.hasRegisters ∧ (regs.map RegisterBlock.encode).getD [] <+: bytes := by
  rw [decodeRegisters] at h
  split at h
  · next has =>
    cases hb : RegisterBlock.decode bytes with
    | error e => simp [hb, Except.map] at h
    | ok b =>
      simp only [hb, Except.map, Except.ok.injEq] at h
      subst h
      exact ⟨has.symm, RegisterBlock.decode_eq_ok.1 hb⟩
  · next has =>
    cases h
    exact ⟨(Bool.not_eq_true _ ▸ has).symm, List.nil_prefix⟩

theorem encode_of_decodeBody {v : Version} {bytes : List Byte} (h : decodeBody v bytes = .ok r) :
    r.version = v ∧ r.registers.isSome = v.hasRegisters ∧
      r.encode <+: v.major :: v.minor :: bytes := by
  match bytes with
  | [] => cases h
  | [_] => cases h
  | [_, _] => cases h
  | model :: bank :: flag :: rest =>
    rw [decodeBody] at h
    cases hf : decodeFlag .alarmFlag flag with
    | error e => simp [hf, bind, Except.bind] at h
    | ok alarm =>
      cases hr : decodeRegisters v rest with
      | error e => simp [hf, hr, bind, Except.bind] at h
      | ok regs =>
        simp only [hf, hr, bind, Except.bind, pure, Except.pure, Except.ok.injEq] at h
        subst h
        obtain ⟨has, rest', rfl⟩ := encode_of_decodeRegisters hr
        refine ⟨rfl, has, rest', ?_⟩
        rw [encode, encodeFlag_of_decodeFlag hf]
        rfl

theorem decode_eq_ok : decode data = .ok r ↔ r.WellFormed ∧ r.encode <+: data := by
  constructor
  · intro h
    match data with
    | [] => cases h
    | [_] => cases h
    | major :: minor :: rest =>
      rw [decode] at h
      split at h
      · cases h
      · next readable =>
        obtain ⟨version, registers, encoded⟩ := encode_of_decodeBody h
        exact ⟨⟨version ▸ readable, version ▸ registers⟩, encoded⟩
  · rintro ⟨wellFormed, rest, rfl⟩
    exact decode_encode wellFormed rest

theorem length_encode (h : r.registers.isSome = r.version.hasRegisters) :
    r.encode.length = r.version.recordLength := by
  rw [Version.recordLength, ← h, encode]
  cases r.registers with
  | none => rfl
  | some b => rfl

theorem encode_of_decode (h : decode data = .ok r) :
    r.encode = data.take r.version.recordLength := by
  obtain ⟨wellFormed, encoded⟩ := decode_eq_ok.1 h
  rw [← length_encode wellFormed.registers]
  exact List.prefix_iff_eq_take.1 encoded

theorem decode_inverts_encode :
    (∀ (r : Record) (rest : List Byte), decode (r.encode ++ rest) = .ok r ↔
      (r.version.major < 1 ∨ r.version.major = 1 ∧ r.version.minor ≤ 1) ∧
        (r.registers.isSome = true ↔ 1 ≤ r.version.minor)) ∧
    (∀ (data : List Byte) (r : Record), decode data = .ok r →
      r.encode = data.take (if 1 ≤ r.version.minor then 11 else 5) ∧
      r.encode.length = if 1 ≤ r.version.minor then 11 else 5) ∧
    ∀ (data data' : List Byte) (r : Record), decode data = .ok r → decode data' = .ok r →
      data.take (if 1 ≤ r.version.minor then 11 else 5) =
        data'.take (if 1 ≤ r.version.minor then 11 else 5) := by
  have length (r : Record) : r.version.recordLength = if 1 ≤ r.version.minor then 11 else 5 := by
    simp only [Version.recordLength, Version.hasRegisters_iff]
  refine ⟨?_, ?_, ?_⟩
  · intro r rest
    rw [decode_eq_ok, wellFormed_iff, and_iff_left (List.prefix_append _ _)]
  · intro data r h
    rw [← length]
    exact ⟨encode_of_decode h, length_encode (decode_eq_ok.1 h).1.registers⟩
  · intro data data' r h h'
    rw [← length, ← encode_of_decode h, ← encode_of_decode h']

def oldMajor : Record where
  version := ⟨0, 200⟩
  model := 7
  outputBank := 9
  alarm := true
  registers := some ⟨1, 2, 3, 4, 5, 6⟩

theorem decode_inverts_encode_oldMajor :
    decode (oldMajor.encode ++ [99]) = .ok oldMajor ∧
    decode ({ oldMajor with registers := none }.encode ++ []) ≠ .ok { oldMajor with registers := none } ∧
    oldMajor.encode = [0, 200, 7, 9, 1, 1, 2, 3, 4, 5, 6] := by
  obtain ⟨inverse, encoded, -⟩ := decode_inverts_encode
  have read : decode (oldMajor.encode ++ [99]) = .ok oldMajor :=
    (inverse oldMajor [99]).2 ⟨by decide, by decide⟩
  refine ⟨read, ?_, (encoded _ _ read).1⟩
  intro read
  exact absurd ((inverse { oldMajor with registers := none } []).1 read).2 (by decide)

end Record

end Keyscan.Snapshot
