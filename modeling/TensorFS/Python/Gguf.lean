import TensorFS.Python.Tensors

namespace TensorFS.Python

open Data

/-! The tensor types of GGUF. -/

/-- Elements and bytes of one encoded block. -/
def ggmlLayout : List (Nat × Nat × Nat) :=
  [(0, 1, 4), (1, 1, 2), (2, 32, 18), (3, 32, 20), (6, 32, 22), (7, 32, 24),
    (8, 32, 34), (9, 32, 40), (10, 256, 84), (11, 256, 110), (12, 256, 144),
    (13, 256, 176), (14, 256, 210), (15, 256, 292), (16, 256, 66),
    (17, 256, 74), (18, 256, 98), (19, 256, 50), (20, 32, 18), (21, 256, 110),
    (22, 256, 82), (23, 256, 136), (24, 1, 1), (25, 1, 2), (26, 1, 4),
    (27, 1, 8), (28, 1, 8), (29, 256, 56), (30, 1, 2), (34, 256, 54),
    (35, 256, 66), (39, 32, 17), (40, 64, 36), (41, 128, 18), (42, 64, 18)]

def blockOf (ggmlType : Int) : Option (Nat × Nat) :=
  (ggmlLayout.find? fun row => (row.1 : Int) = ggmlType).map Prod.snd

def ggmlId : List (String × Nat) :=
  [("F32", 0), ("F16", 1), ("Q4_0", 2), ("Q4_1", 3), ("Q5_0", 6), ("Q5_1", 7),
    ("Q8_0", 8), ("Q8_1", 9), ("Q2_K", 10), ("Q3_K", 11), ("Q4_K", 12),
    ("Q5_K", 13), ("Q6_K", 14), ("Q8_K", 15), ("IQ2_XXS", 16), ("IQ2_XS", 17),
    ("IQ3_XXS", 18), ("IQ1_S", 19), ("IQ4_NL", 20), ("IQ3_S", 21),
    ("IQ2_S", 22), ("IQ4_XS", 23), ("I8", 24), ("I16", 25), ("I32", 26),
    ("I64", 27), ("F64", 28), ("IQ1_M", 29), ("BF16", 30), ("TQ1_0", 34),
    ("TQ2_0", 35), ("MXFP4", 39), ("NVFP4", 40), ("Q1_0", 41), ("Q2_0", 42)]

/-- Rows are encoded blockwise, so only dimension zero is divided. -/
def tensorNbytes (ggmlType : Int) (shape : List Int) : Except GgufError Int :=
  match blockOf ggmlType, shape with
  | none, _ => .error (.unsupportedType ggmlType)
  | some _, [] => .error .noDimensions
  | some (elements, blockBytes), row :: rest => do
      ensure (row % elements = 0) .partialRow
      .ok (rest.foldl (· * ·) (row / elements * blockBytes))

/-- `int` is the language's reading of a number. -/
def typeId (int : Text → Option Int) (dtype : Text) : Except GgufError Int :=
  let spelled :=
    if "GGML_".toList.isPrefixOf dtype then int (dtype.drop 5) else none
  match ((lookup ggmlId dtype).map Int.ofNat).or spelled with
  | none => .error (.unknownType dtype)
  | some identifier => do
      ensure ((blockOf identifier).isSome = true) (.unknownType dtype)
      .ok identifier

end TensorFS.Python
