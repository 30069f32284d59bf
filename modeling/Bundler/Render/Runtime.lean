/-!
# The runtime

The prelude of every script: a registry of modules that is shared between all scripts of a page. A
module is defined by its key, the keys of what it depends on, and its body; it runs when it is
required first, and chunks that are not there yet are loaded on demand.
-/

namespace Bundler.Render

def runtimeLines : List String :=
  ["var __kestrel__ = (function (g) \x7b",
   "  if (g.__kestrel__) return g.__kestrel__;",
   "  var defs = \x7b\x7d, cache = \x7b\x7d, asyncChunks = \x7b\x7d, loading = \x7b\x7d;",
   "  function load(key) \x7b",
   "    if (cache[key]) return cache[key].exports;",
   "    var def = defs[key];",
   "    if (!def) throw new Error(\"Module not found: \" + key);",
   "    var module = (cache[key] = \x7b exports: \x7b\x7d \x7d);",
   "    function require(spec) \x7b",
   "      if (!(spec in def.deps)) throw new Error(\"Cannot find module '\" + spec + \"' from \" + key);",
   "      var target = def.deps[spec];",
   "      return target === null ? g.require(spec) : load(target);",
   "    \x7d",
   "    require.dynamic = function (spec) \x7b",
   "      var target = def.deps[spec];",
   "      if (target === null) return Promise.resolve().then(function () \x7b return g.require(spec); \x7d);",
   "      return ensure(target).then(function () \x7b return load(target); \x7d);",
   "    \x7d;",
   "    def.fn(module, module.exports, require);",
   "    return module.exports;",
   "  \x7d",
   "  function ensure(key) \x7b",
   "    if (defs[key]) return Promise.resolve();",
   "    var name = asyncChunks[key];",
   "    if (!name) return Promise.reject(new Error(\"Module not compiled: \" + key));",
   "    if (!loading[name]) loading[name] = rt.loadChunk(name);",
   "    return loading[name];",
   "  \x7d",
   "  var rt = \x7b",
   "    define: function (key, deps, fn) \x7b defs[key] = \x7b deps: deps, fn: fn \x7d; \x7d,",
   "    require: load,",
   "    async: function (map) \x7b for (var k in map) asyncChunks[k] = map[k]; \x7d,",
   "    loadChunk: function (name) \x7b return Promise.reject(new Error(\"No chunk loader for \" + name)); \x7d,",
   "    refreshReg: function () \x7b\x7d,",
   "    refreshSig: function () \x7b return function (type) \x7b return type; \x7d; \x7d",
   "  \x7d;",
   "  return (g.__kestrel__ = rt);",
   "\x7d)(typeof globalThis !== \"undefined\" ? globalThis : this);"]

def runtime : String := String.join (runtimeLines.map (· ++ "\n"))

end Bundler.Render
