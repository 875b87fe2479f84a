/-!
# Declarations for C

The text of the header file that declares the calls of `Boundary.Calls` to C.
-/

namespace StackMachine

namespace Boundary

/-- The lines of the header file. -/
def headerLines : List String :=
  ["#ifndef VELA_H",
   "#define VELA_H",
   "",
   "#include <stddef.h>",
   "#include <stdint.h>",
   "",
   "#ifdef __cplusplus",
   "extern \"C\" \x7b",
   "#endif",
   "",
   "typedef struct VelaRuntime VelaRuntime;",
   "",
   "typedef enum VelaStatus \x7b",
   "    VELA_STATUS_OK = 0,",
   "    VELA_STATUS_ERROR = 1,",
   "\x7d VelaStatus;",
   "",
   "/* Value tags. Bool and Error payloads live in int_value. */",
   "enum \x7b",
   "    VELA_TAG_NONE = 0,",
   "    VELA_TAG_INT = 1,",
   "    VELA_TAG_FLOAT = 2,",
   "    VELA_TAG_BOOL = 3,",
   "    VELA_TAG_ERROR = 4,",
   "\x7d;",
   "",
   "typedef struct VelaValue \x7b",
   "    uint32_t tag;",
   "    int64_t int_value;",
   "    double float_value;",
   "\x7d VelaValue;",
   "",
   "/* Error codes written to out_value by the boundary itself. */",
   "enum \x7b",
   "    VELA_ERROR_PANIC = -1,",
   "    VELA_ERROR_NULL_ARGUMENT = -2,",
   "\x7d;",
   "",
   "VelaRuntime *runtime_new(void);",
   "VelaStatus runtime_free(VelaRuntime *runtime);",
   "VelaStatus runtime_execute(VelaRuntime *runtime, const uint8_t *bytes, size_t length,",
   "                           VelaValue *out_value);",
   "",
   "VelaRuntime *vela_runtime_new(void);",
   "VelaStatus vela_runtime_free(VelaRuntime *runtime);",
   "VelaStatus vela_runtime_execute(VelaRuntime *runtime, const uint8_t *bytes, size_t length,",
   "                                VelaValue *out_value);",
   "",
   "#ifdef __cplusplus",
   "\x7d",
   "#endif",
   "",
   "#endif /* VELA_H */"]

/-- The header file. -/
def header : String :=
  String.join (headerLines.map fun line => line ++ "\n")

end Boundary

end StackMachine
