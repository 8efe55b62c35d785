/-!
# A corpus of selectors

Selectors as they stand in stylesheets.
-/

namespace Selectors

/-- Selectors from stylesheets. -/
def corpus : List String :=
  ["html",
    "body > main",
    "*, *::before, *::after",
    "a:not([href]):not([tabindex])",
    "a:not([href]):not([tabindex]):focus",
    ".btn-outline-primary:not(:disabled):not(.disabled).active",
    ".btn-group > .btn-group:not(:first-child) > .btn",
    ".custom-select:focus::-ms-value",
    "input[type=\"number\"]::-webkit-inner-spin-button",
    "[type=\"search\"]::-webkit-search-decoration",
    "abbr[title], abbr[data-original-title]",
    ".table-striped tbody tr:nth-of-type(odd)",
    "ul li:nth-child(2n + 1 of .visible) > a",
    "tr:nth-last-child(-n+3)",
    ":is(h1, h2, h3):where(.title, .subtitle)",
    "svg|rect, *|*, svg|*",
    ".card /* comment */ > .card-header:first-child",
    "&:hover > .icon + .label ~ .badge",
    ".navbar-expand-lg .navbar-nav .dropdown-menu",
    ":root:has(> dialog[open])",
    "#app .sidebar__item--active::before",
    ".a.b.c.d.e.f.g.h",
    "div:nth-col(3n-1)",
    ".sm\\:flex"]

/-- All selectors of the corpus as one list. -/
def corpusList : String := ", ".intercalate corpus

end Selectors
